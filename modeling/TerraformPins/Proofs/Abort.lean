import TerraformPins.Program
import TerraformPins.Proofs.Batch
import TerraformPins.Proofs.FileTree

/-!
# Runs that stop as a whole

A run as a whole stops at a folder that cannot be entered, at a batch that cannot be read or is not
valid, or at a pattern that means nothing. All of this is found out before the first file is
written, so such a run leaves the file tree as it is and reports nothing. Every other run prints a
report.

The reasons are stated without the functions that find them out: through which folders a command
line leads, and which drafts of a batch are not valid.

## Main definitions

* `Program.Enters` — the folders that a command line leads through
* `Program.Aborts` — a run stops as a whole

## Main results

* `Program.carryOut_of_aborts` — a run that stops as a whole gives the file tree back
* `Program.run_of_aborts` — such a run changes nothing and reports nothing
-/

namespace TerraformPins

namespace Program

/-- The folders of a command line lead from one place to another, and can be entered. -/
inductive Enters (t : FileTree) : Location → List String → Location → Prop
  | nil (place : Location) : Enters t place [] place
  | cons {here next last : Location} {path : String} {paths : List String}
      (reached : t.locate here path = .ok next) (enterable : t.canEnter next = true)
      (more : Enters t next paths last) : Enters t here (path :: paths) last

theorem enter_eq_ok_iff {t : FileTree} {here last : Location} {paths : List String} :
    enter t here paths = .ok last ↔ Enters t here paths last := by
  constructor
  · intro entered
    -- Each folder is looked up from the one before it, so the induction is over all starting
    -- points.
    induction paths generalizing here with
    | nil =>
      cases entered
      exact .nil _
    | cons path paths ih =>
      unfold enter at entered
      cases reached : t.locate here path with
      | error fault => simp [reached] at entered
      | ok next =>
        cases enterable : t.canEnter next with
        | false => simp [reached, enterable] at entered
        | true =>
          simp only [reached, enterable, if_true] at entered
          exact .cons reached enterable (ih entered)
  · intro enters
    induction enters with
    | nil => rfl
    | cons reached enterable _ ih =>
      unfold enter
      simp only [reached, enterable, if_true, ih]

/-- A run as a whole stops: the folders of the command line lead nowhere, or in the folder that they
lead to the batch cannot be read, is no batch, or is not valid, or the pattern is neither the path
of a file nor a glob. -/
inductive Aborts (t : FileTree) (workFolder : Location) (inv : Invocation) : Prop
  | folder (nowhere : ∀ here, ¬ Enters t workFolder inv.workFolders here)
  | unreadable {here : Location} {path : String} {fault : IoFault}
      (enters : Enters t workFolder inv.workFolders here) (command : inv.command = .batch path)
      (read : t.textFrom here path = .error fault)
  | malformed {here : Location} {path text : String}
      (enters : Enters t workFolder inv.workFolders here) (command : inv.command = .batch path)
      (read : t.textFrom here path = .ok text) (noDraft : BatchDraft.ofText? text = none)
  | invalid {here : Location} {path text : String} {draft : BatchDraft}
      (enters : Enters t workFolder inv.workFolders here) (command : inv.command = .batch path)
      (read : t.textFrom here path = .ok text) (drafted : BatchDraft.ofText? text = some draft)
      (wrong : draft.Invalid)
  | pattern {here : Location} {plan : Plan} (enters : Enters t workFolder inv.workFolders here)
      (planned : inv.command.plan t here = .ok plan)
      (noFile : t.isFile (Path.join (Path.ofLocation here) (Program.pattern inv plan)) = false)
      (noGlob : FileTree.globOf? (Program.pattern inv plan) = none)

section Run

variable {t : FileTree} {workFolder : Location} {inv : Invocation}

/-- A plan that cannot be made comes from a batch that cannot be read or is not valid. -/
theorem aborts_of_plan_eq_error {here : Location} {e : RunError}
    (enters : Enters t workFolder inv.workFolders here)
    (failed : inv.command.plan t here = .error e) : Aborts t workFolder inv := by
  cases command : inv.command with
  | upgrade u =>
    rw [command] at failed
    cases failed
  | batch path =>
    cases read : t.textFrom here path with
    | error fault => exact .unreadable enters command read
    | ok text =>
      cases drafted : BatchDraft.ofText? text with
      | none => exact .malformed enters command read drafted
      | some draft =>
        refine .invalid enters command read drafted (BatchDraft.check_eq_error_iff.mp ?_)
        cases checked : draft.check with
        | error fault => exact ⟨fault, rfl⟩
        | ok b =>
          rw [command, Command.plan, Batch.ofFile, read] at failed
          simp [Batch.ofText, drafted, checked, Except.mapError] at failed

/-- A run that stops as a whole gives the file tree back. -/
theorem carryOut_of_aborts (aborts : Aborts t workFolder inv) :
    ∃ warnings e, carryOut t workFolder inv = (stopped warnings e, t) := by
  -- In three of the cases the batch is refused, for different reasons but with the same outcome.
  have planless : ∀ {here path fault}, Enters t workFolder inv.workFolders here →
      inv.command = .batch path → Batch.ofFile t here path = .error fault →
      ∃ warnings e, carryOut t workFolder inv = (stopped warnings e, t) := by
    intro here path fault enters command refused
    refine ⟨[], .batch fault, ?_⟩
    simp only [carryOut, enter_eq_ok_iff.mpr enters, command, Command.plan, refused]
  cases aborts with
  | folder nowhere =>
    cases entered : enter t workFolder inv.workFolders with
    | ok here => exact absurd (enter_eq_ok_iff.mp entered) (nowhere here)
    | error e => exact ⟨[], e, by simp only [carryOut, entered]⟩
  | unreadable enters command read =>
    exact planless enters command (by rw [Batch.ofFile, read])
  | @malformed here path _ enters command read noDraft =>
    have refused : Batch.ofFile t here path = .error (.invalid .malformed) := by
      simp only [Batch.ofFile, read, Batch.ofText, noDraft, Except.mapError]
    exact planless enters command refused
  | @invalid here path _ draft enters command read drafted wrong =>
    obtain ⟨fault, checked⟩ := BatchDraft.check_eq_error_iff.mpr wrong
    have refused : Batch.ofFile t here path = .error (.invalid fault) := by
      simp only [Batch.ofFile, read, Batch.ofText, drafted, checked, Except.mapError]
    exact planless enters command refused
  | @pattern here plan enters planned noFile noGlob =>
    refine ⟨plan.warnings, .invalidPattern, ?_⟩
    have nothing : t.matching? (Path.ofLocation here) (Program.pattern inv plan) = none := by
      rw [FileTree.matching?, noFile, noGlob]
      rfl
    simp only [carryOut, enter_eq_ok_iff.mpr enters, planned, nothing]

/-- A run that does not stop as a whole updates the files that it finds and comes to its end. -/
theorem carryOut_of_goesOn (goesOn : ¬ Aborts t workFolder inv) :
    ∃ plan here paths, Enters t workFolder inv.workFolders here ∧
      inv.command.plan t here = .ok plan ∧
      t.matching? (Path.ofLocation here) (Program.pattern inv plan) = some paths ∧
      carryOut t workFolder inv =
        (finished inv plan here paths.isEmpty ((job inv plan).updateFiles t paths).1,
          ((job inv plan).updateFiles t paths).2) := by
  -- Each of the three steps goes on, since its failure would be a way to stop.
  cases entered : enter t workFolder inv.workFolders with
  | error e =>
    refine absurd (.folder fun here enters => ?_) goesOn
    rw [enter_eq_ok_iff.mpr enters] at entered
    cases entered
  | ok here =>
    have enters := enter_eq_ok_iff.mp entered
    cases planned : inv.command.plan t here with
    | error e => exact absurd (aborts_of_plan_eq_error enters planned) goesOn
    | ok plan =>
      cases found : t.matching? (Path.ofLocation here) (Program.pattern inv plan) with
      | some paths =>
        refine ⟨plan, here, paths, enters, planned, found, ?_⟩
        simp only [carryOut, entered, planned, found]
      | none =>
        unfold FileTree.matching? at found
        split at found
        case isTrue => cases found
        case isFalse noFile =>
          have noGlob := Option.map_eq_none_iff.mp found
          exact absurd (.pattern enters planned (Bool.of_not_eq_true noFile) noGlob) goesOn

/-- A run that does not stop as a whole comes to its end. -/
theorem carryOut_of_not_aborts (goesOn : ¬ Aborts t workFolder inv) :
    ∃ plan here isEmpty report,
      (carryOut t workFolder inv).1 = finished inv plan here isEmpty report := by
  obtain ⟨plan, here, paths, -, -, -, ends⟩ := carryOut_of_goesOn goesOn
  exact ⟨plan, here, paths.isEmpty, _, congrArg Prod.fst ends⟩

/-- A run that comes to its end prints a report. -/
theorem text_finished_ne_empty (plan : Plan) (here : Location) (isEmpty : Bool)
    (report : RunReport) : (finished inv plan here isEmpty report).text ≠ "" := by
  intro nothing
  have noChars := congrArg String.toList nothing
  unfold finished at noChars
  cases form : inv.form with
  | text => simp [form, RunReport.lines, String.join_append] at noChars
  | json => simp [form, Datum.json, RunReport.datum, Datum.jsonAt] at noChars
  | yaml => simp [form, Datum.yaml, RunReport.datum, Datum.yamlFields] at noChars

/-- A run that stops as a whole changes nothing: the file tree afterwards is the one before, the
exit code is 1 and nothing is reported. Every other run prints a report. -/
theorem run_of_aborts {arguments : List String}
    (parsed : Invocation.ofArguments arguments = .ok inv) :
    (Aborts t workFolder inv →
      (run t workFolder arguments).2 = t ∧ (run t workFolder arguments).1.exitCode = 1 ∧
        (run t workFolder arguments).1.text = "") ∧
      (¬ Aborts t workFolder inv → (run t workFolder arguments).1.text ≠ "") := by
  have carried : run t workFolder arguments = carryOut t workFolder inv := by
    rw [run, parsed]
  rw [carried]
  constructor
  · intro aborts
    obtain ⟨warnings, e, stops⟩ := carryOut_of_aborts aborts
    rw [stops]
    exact ⟨rfl, rfl, rfl⟩
  · intro goesOn
    obtain ⟨plan, here, isEmpty, report, ends⟩ := carryOut_of_not_aborts goesOn
    rw [ends]
    exact text_finished_ne_empty plan here isEmpty report

end Run

/-- A batch of two modules, the second of which has a blank version. -/
def halfBatch : String :=
  "modules:\n- source: s\n  version: 2\n- source: r\n  version: \"  \"\n"

/-- A folder with this batch and a file with a module that its first entry is meant for. -/
def halfTree : FileTree :=
  .folder {} [("b", .file { bytes := halfBatch.toUTF8, mode := 0o644 }),
    ("a.tf", .file { bytes := "module \"m\" \x7b source = \"s\" \x7d".toUTF8, mode := 0o600 })]

/-- The command line for this batch. -/
def halfRun : Invocation :=
  { command := .batch "b", addMissing := true }

theorem aborts_halfRun : Aborts halfTree [] halfRun := by
  have read : halfTree.textFrom [] "b" = .ok halfBatch :=
    FileTree.textFrom_of_bytes (show halfTree.locate [] "b" = .ok ["b"] by rfl) rfl rfl rfl
  have drafted : (BatchDraft.ofText? halfBatch).map
      (fun draft => draft.modules.map DraftEntry.version) = some [some "2", some "  "] := by
    decide +kernel
  obtain ⟨draft, found, versions⟩ := Option.map_eq_some_iff.mp drafted
  have last : some "  " ∈ draft.modules.map DraftEntry.version := by simp [versions]
  obtain ⟨e, member, blank⟩ := List.mem_map.mp last
  refine .invalid (.nil []) rfl read found (.inr ⟨.modules, e, member, .inr fun text same => ?_⟩)
  obtain rfl := Option.some.inj (blank.symm.trans same)
  exact List.all_eq_true.mp (by decide)

theorem run_of_aborts_halfRun :
    Invocation.ofArguments ["batch", "b", "--force-add"] = .ok halfRun ∧
      Aborts halfTree [] halfRun ∧
      (run halfTree [] ["batch", "b", "--force-add"]).2 = halfTree ∧
      (run halfTree [] ["batch", "b", "--force-add"]).1.exitCode = 1 ∧
      (run halfTree [] ["batch", "b", "--force-add"]).1.text = "" := by
  have parsed : Invocation.ofArguments ["batch", "b", "--force-add"] = .ok halfRun := by
    decide +kernel
  exact ⟨parsed, aborts_halfRun, (run_of_aborts parsed).1 aborts_halfRun⟩

end Program

end TerraformPins
