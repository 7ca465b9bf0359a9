import Mathlib.Data.List.Induction
import TerraformPins.Proofs.FrontEnds
import TerraformPins.Proofs.Isolation
import TerraformPins.Proofs.Roundtrip

/-!
# What a run accounts for

A run over paths leaves a report or an error for each of them, and what the user sees is made of
these: a line for each change, the totals at the end and the exit code. The same facts are kept in
several places. That a file has changed is a flag of its own next to the changes, and a note at each
write would say it as well; whether the file is written follows from the flag; the totals count what
the lines show. All of them agree, since a visit asks for a write exactly if it adds a change, and
since every path of the list adds one entry, also if it was there before and is met again as the
first visit has left it.

## Main definitions

* `Document.updateWatched` — an update that notes whether a write was asked for
* `Job.Accounts` — a report or an error for each path, in order, each from the file tree at its time
* `ReportLine`, `Totals` — what the lines of a report show

## Main results

* `Document.updateWatched_eq` — the flag says whether a write was asked for
* `Document.changes_update` — the changes stand upgrade by upgrade and in the order of the text
* `Job.accounts_updateFiles` — a run accounts for every path
* `Program.finished_accounts` — reports, lines, totals and exit code agree
-/

namespace TerraformPins

open Hcl

/-! ### The note of a write -/

namespace Document

section Watched

variable {σ : Type}

/-- The same visit, with a note whether a write was asked for so far. -/
def watched (visit : Visit σ) : Visit (Bool × σ) := fun s site =>
  ((s.1 || (visit s.2 site).2.isSome, (visit s.2 site).1), (visit s.2 site).2)

theorem choices_watched (visit : Visit σ) (noted : Bool) (s : σ) (slots : List Slot) :
    choices (watched visit) (noted, s) slots =
      ((noted || (choices visit s slots).2.any Option.isSome, (choices visit s slots).1),
        (choices visit s slots).2) := by
  induction slots generalizing noted s with
  | nil => simp
  | cons slot slots ih => simp [choices, watched, ih, Bool.or_assoc]

end Watched

/-- Applies one upgrade, with a note whether a write was asked for. -/
def applyWatched (addMissing : Bool) (state : (Bool × Outcome) × Document) (u : Upgrade) :
    (Bool × Outcome) × Document :=
  state.2.walk (watched (u.visit addMissing)) state.1

/-- An update with a note whether a write was asked for. -/
def updateWatched (d : Document) (us : List Upgrade) (addMissing : Bool) :
    (Bool × Outcome) × Document :=
  us.foldl (applyWatched addMissing) ((false, {}), d)

/-- The records with their flag as the note. -/
def noted (state : Outcome × Document) : (Bool × Outcome) × Document :=
  ((state.1.changed, state.1), state.2)

variable (addMissing : Bool)

/-- An upgrade asks for a write at some slot exactly if it records a change at some slot. -/
theorem any_isSome_choice (u : Upgrade) (slots : List Slot) :
    (slots.map fun s => u.choice addMissing s.site).any Option.isSome =
      !(slots.filterMap fun s => u.change? addMissing s.site).isEmpty := by
  induction slots with
  | nil => rfl
  | cons s slots ih =>
    rw [List.map_cons, List.any_cons, ih, List.filterMap_cons]
    unfold Upgrade.choice Upgrade.change?
    split <;> rfl

/-- A note that agrees with the flag of the records goes on agreeing with it. -/
theorem applyWatched_noted (state : Outcome × Document) (u : Upgrade) :
    applyWatched addMissing (noted state) u = noted (applyUpgrade addMissing state u) := by
  obtain ⟨o, d⟩ := state
  have asked := any_isSome_choice addMissing u d.slots
  rw [applyWatched, applyUpgrade, noted, walk_eq, walk_eq, choices_watched, choices_visit, asked]
  rfl

/-- The flag of an update says whether a write was asked for, and nothing else is different. -/
theorem updateWatched_eq (d : Document) (us : List Upgrade) :
    d.updateWatched us addMissing = noted (d.update us addMissing) := by
  show us.foldl (applyWatched addMissing) (noted ({}, d)) = noted
    (us.foldl (applyUpgrade addMissing) ({}, d))
  exact List.foldl_hom noted (applyWatched_noted addMissing)

/-! ### The order of the changes -/

/-- The changes of an upgrade are those of the sites, in their order. -/
theorem changes_update_singleton (d : Document) (u : Upgrade) :
    (d.update [u] addMissing).1.changes = d.sites.filterMap (u.change? addMissing) := by
  rw [(update_eq addMissing [u] d).1, sites_eq, List.filterMap_map]
  exact List.append_nil _

/-- The changes of an update stand upgrade by upgrade, and for each of them in the order of the
sites, as the upgrades before it have left them. -/
theorem changes_update (d : Document) (us : List Upgrade) :
    (d.update us addMissing).1.changes = us.zipIdx.flatMap fun x =>
      (d.update (us.take x.2) addMissing).2.sites.filterMap (x.1.change? addMissing) := by
  -- The last upgrade sees what all others have left, so the induction takes it off.
  induction us using List.reverseRecOn with
  | nil => rfl
  | append_singleton us u ih =>
    have earlier : ∀ x ∈ us.zipIdx, (us ++ [u]).take x.2 = us.take x.2 := by
      intro x member
      exact List.take_append_of_le_length (List.snd_lt_of_mem_zipIdx member).le
    rw [(d.update_append us [u] addMissing).2.1, ih, changes_update_singleton, List.zipIdx_append,
      List.flatMap_append]
    congr 1
    · rw [List.flatMap_def, List.flatMap_def]
      exact congrArg _ (List.map_congr_left fun x member => by rw [earlier x member])
    · simp

end Document

/-! ### An entry for each path -/

/-- A report on a file says what an update of its document does. -/
structure FileReport.Agrees (r : FileReport) (job : Job) (d : Document) : Prop where
  /-- The flag is set exactly if there are changes. -/
  changed : r.changed = true ↔ r.outcome.changes ≠ []
  /-- A changed file is one for which a write was asked for. -/
  noted : (d.updateWatched job.upgrades job.addMissing).1.1 = r.changed
  written : r.written = true ↔ r.changed = true ∧ job.dryRun = false
  order : r.outcome.changes = job.upgrades.zipIdx.flatMap fun x =>
    (d.update (job.upgrades.take x.2) job.addMissing).2.sites.filterMap (x.1.change? job.addMissing)

/-- A run over paths, one after another, leaves reports, errors and a file tree. Each path adds a
report or an error, and the next one is met in the file tree that it leaves. -/
inductive Job.Accounts (job : Job) :
    FileTree → List String → List FileReport → List FileError → FileTree → Prop where
  | nil (t : FileTree) : Accounts job t [] [] [] t
  | file {t u last : FileTree} {path : String} {paths : List String} {d : Document} {r : FileReport}
      {files : List FileReport} {errors : List FileError} (loaded : load t path = .ok d)
      (updated : job.updateFile t path = (.ok r, u)) (about : r.path = path)
      (agrees : r.Agrees job d) (more : Accounts job u paths files errors last) :
      Accounts job t (path :: paths) (r :: files) errors last
  | error {t u last : FileTree} {path : String} {paths : List String} {e : FileError}
      {files : List FileReport} {errors : List FileError}
      (failed : job.updateFile t path = (.error e, u)) (about : e.path = path)
      (more : Accounts job u paths files errors last) :
      Accounts job t (path :: paths) files (e :: errors) last

namespace Job

variable {job : Job} {t last : FileTree} {paths : List String} {files : List FileReport}
  {errors : List FileError}

theorem agrees_report (job : Job) (path : String) (d : Document) :
    (job.report path d).Agrees job d where
  changed := by simp [report, FileReport.changed, updateDocument, Document.changed_update]
  noted := congrArg (·.1.1) (Document.updateWatched_eq job.addMissing d job.upgrades)
  written := by simp [report, FileReport.changed]
  order := Document.changes_update job.addMissing d job.upgrades

/-- A run accounts for every path. -/
theorem accounts_updateFiles (job : Job) (t : FileTree) (paths : List String) :
    job.Accounts t paths (job.updateFiles t paths).1.files (job.updateFiles t paths).1.errors
      (job.updateFiles t paths).2 := by
  -- Each path is met in the tree that the paths before it have left, so the tree is generalized.
  induction paths generalizing t with
  | nil => exact .nil t
  | cons path paths ih =>
    rw [updateFiles_cons]
    cases result : (job.updateFile t path).1 with
    | ok r =>
      have updated : job.updateFile t path = (.ok r, (job.updateFile t path).2) :=
        Prod.ext result rfl
      obtain ⟨d, -, loaded, rfl, -⟩ := updateFile_eq_ok updated
      exact .file loaded updated rfl (agrees_report job path d) (ih _)
    | error e =>
      have failed : job.updateFile t path = (.error e, (job.updateFile t path).2) :=
        Prod.ext result rfl
      exact .error failed (path_of_updateFile_error failed) (ih _)

/-- There are as many entries as paths. -/
theorem Accounts.length (accounts : job.Accounts t paths files errors last) :
    files.length + errors.length = paths.length := by
  induction accounts with
  | nil => rfl
  | file _ _ _ _ _ ih => rw [List.length_cons, List.length_cons, ← ih, Nat.add_right_comm]
  | error _ _ _ ih => rw [List.length_cons, List.length_cons, ← ih, Nat.add_assoc]

/-- The flags count the reports with changes. -/
theorem Accounts.countP_changed (accounts : job.Accounts t paths files errors last) :
    files.countP FileReport.changed = (files.filter (·.outcome.changes ≠ [])).length := by
  rw [← List.countP_eq_length_filter]
  induction accounts with
  | nil => rfl
  | file _ _ _ agrees _ ih =>
    rw [List.countP_cons, List.countP_cons, ih]
    simp only [agrees.changed, decide_eq_true_eq]
  | error _ _ _ ih => exact ih

end Job

/-! ### What is printed -/

/-- A line of a report about a file. -/
inductive ReportLine where
  | change (file : FileReport) (c : Change)
  | refusal (file : FileReport) (s : Refusal)
  deriving DecidableEq, Repr

/-- The numbers in the last line of a report. -/
structure Totals where
  changes : Nat
  files : Nat
  paths : Nat
  deriving DecidableEq, Repr

namespace ReportLine

/-- The text of a line. -/
def text (v : ReportView) : ReportLine → String
  | change file c => v.mark ++ file.shownPath v.workFolder ++ ": " ++ c.line
  | refusal file s => v.mark ++ file.shownPath v.workFolder ++ ": " ++ "skipped " ++ s.line

/-- The change in a line, with the report it comes from. -/
def change? : ReportLine → Option (FileReport × Change)
  | change file c => some (file, c)
  | refusal .. => none

end ReportLine

/-- The text of the last line. -/
def Totals.text (v : ReportView) (n : Totals) : String :=
  v.mark ++ (if v.dryRun then "Would update " else "Updated ") ++ toString n.changes ++
    " version(s) in " ++ toString n.files ++ " of " ++ toString n.paths ++ " file(s)"

/-- The lines about a file. -/
def ReportView.about (v : ReportView) (r : FileReport) : List ReportLine :=
  r.outcome.changes.map (.change r) ++
    if v.verbose then (r.outcome.refusals.filter (!v.isWarning ·)).map (.refusal r) else []

namespace RunReport

variable (r : RunReport) (v : ReportView)

/-- The changes of a run, file by file. -/
def actions : List (FileReport × Change) :=
  r.files.flatMap fun f => f.outcome.changes.map (f, ·)

/-- The lines about files. -/
def fileLines : List ReportLine :=
  r.files.flatMap v.about

/-- The numbers of changes, of reports on changed files and of all entries. -/
def totals : Totals :=
  ⟨r.actions.length, r.changedFiles, r.files.length + r.errors.length⟩

/-- The lines of a report are those about files and one with the totals. -/
theorem lines_eq : r.lines v = (r.fileLines v).map (·.text v) ++ [r.totals.text v] := by
  have each (f : FileReport) : v.fileLines f = (v.about f).map (·.text v) := by
    simp only [ReportView.fileLines, ReportView.about, List.map_append, List.map_map]
    cases v.verbose <;> simp [Function.comp_def, ReportLine.text]
  have changes : r.changeCount = r.actions.length := by
    simp [changeCount, actions, List.length_flatMap]
  rw [lines, fileLines, List.map_flatMap, funext each, summary, changes]
  rfl

/-- The lines show every change once and in order. -/
theorem filterMap_change?_fileLines : (r.fileLines v).filterMap ReportLine.change? = r.actions := by
  rw [fileLines, actions, List.filterMap_flatMap]
  congr 1
  funext f
  rw [ReportView.about, List.filterMap_append, List.filterMap_map]
  have changes : f.outcome.changes.filterMap (ReportLine.change? ∘ ReportLine.change f) =
      f.outcome.changes.map (f, ·) := congrFun List.filterMap_eq_map f.outcome.changes
  rw [changes]
  cases v.verbose <;> simp [ReportLine.change?, Function.comp_def]

end RunReport

namespace Program

/-- As text, a report is its lines, each with a line end. -/
theorem text_finished_of_form {inv : Invocation} (form : inv.form = .text) (plan : Plan)
    (here : Location) (isEmpty : Bool) (r : RunReport) :
    let view : ReportView := ⟨here, inv.dryRun, inv.verbose, !plan.isBatch⟩
    (finished inv plan here isEmpty r).text =
      String.join ((r.fileLines view).map fun l => l.text view ++ "\n") ++
      (r.totals.text view ++ "\n") := by
  rw [text_finished, form]
  simp [RunReport.lines_eq, Function.comp_def]

/-- Nothing is lost in a report, and nothing is counted twice.

* A run accounts for every path of the list, also for one that is there more than once: each adds a
  report or an error, in order and from the file tree that the paths before it have left. A report
  has changed exactly if it has changes, which is if a write was asked for; it is written exactly if
  it has changed and the run is not dry; its changes stand upgrade by upgrade and in the order of
  the document.
* As text, the run prints the lines about files and then the totals. The lines show each change of
  the run once and in order, and the totals are the numbers of changes, of files with a change and
  of paths.
* The exit code is zero exactly if there are no errors.
* Every run that does not stop as a whole ends in this way, with the paths that it finds. -/
theorem finished_accounts (t : FileTree) (inv : Invocation) (plan : Plan) (here : Location)
    (paths : List String) :
    let ran := (job inv plan).updateFiles t paths
    let seen := finished inv plan here paths.isEmpty ran.1
    let view : ReportView := ⟨here, inv.dryRun, inv.verbose, !plan.isBatch⟩
    ((job inv plan).Accounts t paths ran.1.files ran.1.errors ran.2 ∧
      ran.1.files.length + ran.1.errors.length = paths.length) ∧
    ((inv.form = .text → seen.text =
        String.join ((ran.1.fileLines view).map fun l => l.text view ++ "\n") ++
          (ran.1.totals.text view ++ "\n")) ∧
      (ran.1.fileLines view).filterMap ReportLine.change? = ran.1.actions ∧
      ran.1.totals = ⟨ran.1.actions.length, (ran.1.files.filter (·.outcome.changes ≠ [])).length,
        paths.length⟩) ∧
    (seen.exitCode = 0 ↔ ran.1.errors = []) ∧
    ∀ workFolder, ¬ Aborts t workFolder inv →
      ∃ plan here paths, inv.command.plan t here = .ok plan ∧
      t.matching? (Path.ofLocation here) (pattern inv plan) = some paths ∧
      carryOut t workFolder inv =
        (finished inv plan here paths.isEmpty ((job inv plan).updateFiles t paths).1,
          ((job inv plan).updateFiles t paths).2) := by
  intro ran seen view
  have accounts := (job inv plan).accounts_updateFiles t paths
  refine ⟨⟨accounts, accounts.length⟩, ⟨fun form => text_finished_of_form form plan here _ ran.1,
    ran.1.filterMap_change?_fileLines view, ?_⟩, ?_, fun workFolder goesOn => ?_⟩
  · rw [RunReport.totals, RunReport.changedFiles, accounts.countP_changed, accounts.length]
  · rw [show seen.exitCode = _ from exitCode_finished inv plan here paths.isEmpty ran.1]
    cases ran.1.errors <;> simp
  · obtain ⟨plan, here, paths, -, planned, found, ends⟩ := carryOut_of_goesOn goesOn
    exact ⟨plan, here, paths, planned, found, ends⟩

/-- A version for every module. -/
def versionTwo : Upgrade :=
  ⟨.module, none, "2", [], [], []⟩

/-- The command line for this version. -/
def everywhere : Invocation :=
  { command := .upgrade versionTwo, addMissing := true }

theorem not_aborts_everywhere : ¬ Aborts Job.fourFiles [] everywhere := by
  intro aborts
  cases aborts with
  | folder nowhere => exact nowhere [] (.nil [])
  | unreadable _ command => cases command
  | malformed _ command => cases command
  | invalid _ command => cases command
  | pattern _ planned _ noGlob =>
    obtain rfl := Except.ok.inj planned
    exact absurd noGlob (by decide +kernel)

/-- A module gets a version, another file is no HCL, and the module is met again and has its
version. -/
def reportTwice : RunReport where
  files := [⟨"/a", ⟨true, [⟨.module, "m", none, "2"⟩], []⟩, true⟩, ⟨"/a", {}, false⟩]
  errors := [.notHcl "/b"]

theorem updateFiles_twice :
    (Job.everyModule.updateFiles Job.fourFiles ["/a", "/b", "/a"]).1 = reportTwice := by
  obtain ⟨bare, versioned, read, readToo, outcome, text, stays⟩ := Job.exists_fourFiles
  have here : Job.fourFiles.place "/a" = .ok ["a"] := by rfl
  have loaded : Job.load Job.fourFiles "/a" = .ok bare :=
    Job.load_of_bytes here rfl rfl rfl read
  have first : Job.everyModule.report "/a" bare =
      ⟨"/a", ⟨true, [⟨.module, "m", none, "2"⟩], []⟩, true⟩ := by
    simp only [Job.report, outcome]
    rfl
  have updated := @Job.updateFile_of_canWrite Job.everyModule _ _ _ _ (fun _ _ _ => by rfl) loaded
    here (by rw [first])
  rw [first, text] at updated
  -- The second path still leads to what was there in the beginning.
  have apart : Job.fourFiles.Apart "/a" "/b" := fun _ same => by cases same
  have failed : Job.load (Job.everyModule.updateFile Job.fourFiles "/a").2 "/b" =
      .error (.notHcl "/b") := by
    have alike := Job.alike_updateFile Job.everyModule Job.fourFiles "/a"
    have same := Job.file?_updateFile Job.everyModule apart
    exact (Job.load_congr alike same.symm).symm.trans rfl
  -- The first path leads to what was written.
  have again : Job.load (Job.everyModule.updateFile Job.fourFiles "/a").2 "/a" = .ok versioned :=
    Job.load_of_written loaded here (by rw [updated]) readToo
  have third : Job.everyModule.report "/a" versioned = ⟨"/a", {}, false⟩ := by
    simp only [Job.report, stays]
    rfl
  rw [Job.updateFiles_cons, Job.updateFiles_cons, Job.updateFile_of_error _ failed,
    Job.updateFiles_cons, Job.updateFile_of_unwritten again (by rw [third]), updated, third]
  rfl

theorem finished_accounts_twice :
    let plan : Plan := { upgrades := [versionTwo] }
    let ran := (job everywhere plan).updateFiles Job.fourFiles ["/a", "/b", "/a"]
    let seen := finished everywhere plan [] false ran.1
    let view : ReportView := ⟨[], false, false, true⟩
    everywhere.form = .text ∧ ¬ Aborts Job.fourFiles [] everywhere ∧
      (job everywhere plan).Accounts Job.fourFiles ["/a", "/b", "/a"] ran.1.files ran.1.errors
        ran.2 ∧
      ran.1.files.length + ran.1.errors.length = 3 ∧ ran.1.totals = ⟨1, 1, 3⟩ ∧
      seen.text = "a: module m: (none) -> 2\nUpdated 1 version(s) in 1 of 3 file(s)\n" ∧
      seen.text = String.join ((ran.1.fileLines view).map fun l => l.text view ++ "\n") ++
        (ran.1.totals.text view ++ "\n") ∧
      seen.exitCode ≠ 0 ∧ ran.1.errors ≠ [] ∧
      ∃ plan here paths, carryOut Job.fourFiles [] everywhere =
        (finished everywhere plan here paths.isEmpty
            ((job everywhere plan).updateFiles Job.fourFiles paths).1,
          ((job everywhere plan).updateFiles Job.fourFiles paths).2) := by
  intro plan
  have shown : (finished everywhere { upgrades := [versionTwo] } [] false reportTwice).text =
      "a: module m: (none) -> 2\nUpdated 1 version(s) in 1 of 3 file(s)\n" := by
    decide +kernel
  have all := finished_accounts Job.fourFiles everywhere plan [] ["/a", "/b", "/a"]
  have reported : ((job everywhere plan).updateFiles Job.fourFiles ["/a", "/b", "/a"]).1 =
      reportTwice := updateFiles_twice
  -- From here on only the report of the run matters, so that the run is not evaluated.
  generalize (job everywhere plan).updateFiles Job.fourFiles ["/a", "/b", "/a"] =
    ran at all reported ⊢
  obtain ⟨report, left⟩ := ran
  obtain rfl : report = reportTwice := reported
  intro ran seen view
  obtain ⟨⟨accounts, count⟩, ⟨text, -, -⟩, exit, ends⟩ := all
  have failed : ran.1.errors ≠ [] := List.cons_ne_nil _ _
  obtain ⟨plan', here, paths, -, -, carried⟩ := ends [] not_aborts_everywhere
  exact ⟨rfl, not_aborts_everywhere, accounts, count, rfl, shown, text rfl,
    fun zero => failed (exit.mp zero), failed, plan', here, paths, carried⟩

end Program

end TerraformPins
