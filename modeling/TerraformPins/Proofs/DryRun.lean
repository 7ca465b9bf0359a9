import TerraformPins.Proofs.FileUpdate

/-!
# Dry runs

A dry run predicts a run on files that are pairwise different, if the writes of the run go through.
The run rewrites files while later ones are still to be read; a write leaves what other paths reach,
so each file is read as it was in the beginning. A dry run writes nothing, so the same files are
there for it.

## Main definitions

* `FileReport.unwritten` — a report as a dry run gives it
* `Job.dry`, `Job.wet` — a job as a dry run, and as a run that writes

## Main results

* `Job.updateFile_dry` — a dry run predicts the update of one file
* `Job.dryRun_predicts` — a dry run predicts a run
-/

namespace TerraformPins

/-- The same report for a file that is left as it is. -/
def FileReport.unwritten (r : FileReport) : FileReport :=
  { r with written := false }

namespace Job

variable (job : Job)

/-- The same job as a dry run. -/
abbrev dry : Job := { job with dryRun := true }

/-- The same job as a run that writes. -/
abbrev wet : Job := { job with dryRun := false }

variable {t u : FileTree} {path : String}

theorem report_dry (d : Document) : job.dry.report path d = (job.wet.report path d).unwritten := by
  simp [report, FileReport.unwritten, updateDocument]

/-- A dry run leaves a file, and reports on it what a run reports if it can write the file. -/
theorem updateFile_dry (can : job.wet.CanWrite t path) :
    job.dry.updateFile t path = ((job.wet.updateFile t path).1.map FileReport.unwritten, t) := by
  cases loaded : load t path with
  | error e =>
    rw [updateFile_of_error _ loaded, updateFile_of_error _ loaded]
    rfl
  | ok d =>
    have stays : (job.dry.report path d).written = false := by simp [report]
    obtain ⟨u, inWet⟩ := exists_updateFile can loaded
    rw [updateFile_of_unwritten loaded stays, inWet, report_dry]
    rfl

/-- A dry run over files that are still those of the beginning predicts a run. -/
theorem updateFiles_dry {paths : List String} (alike : t.Alike u)
    (same : ∀ path ∈ paths, t.file? path = u.file? path)
    (can : ∀ path ∈ paths, job.wet.CanWrite t path) (apart : paths.Pairwise t.Apart) :
    (job.dry.updateFiles t paths).2 = t ∧
      job.dry.results t paths =
        (job.wet.results u paths).map (Except.map FileReport.unwritten) := by
  -- The tree `t` of the dry run stays; `u` is the one that the files so far have left.
  induction paths generalizing u with
  | nil => exact ⟨rfl, rfl⟩
  | cons path paths ih =>
    obtain ⟨here, later⟩ := List.pairwise_cons.mp apart
    obtain ⟨sameHere, sameLater⟩ := List.forall_mem_cons.mp same
    obtain ⟨canHere, canLater⟩ := List.forall_mem_cons.mp can
    have predicted := updateFile_dry job canHere
    have sameNow : ∀ other ∈ paths, t.file? other = (job.wet.updateFile u path).2.file? other := by
      intro other member
      rw [file?_updateFile job.wet (alike.apart (here other member))]
      exact sameLater other member
    obtain ⟨stays, rest⟩ :=
      ih (alike.trans (alike_updateFile job.wet u path)) sameNow canLater later
    rw [updateFiles_cons, results, results, predicted]
    exact ⟨stays, by rw [rest, fst_updateFile_congr alike sameHere, List.map_cons]⟩

/-- A dry run over pairwise different files gives the reports and errors of a run whose writes go
through, in the same order and for the same paths, with nothing written, and leaves the files as
they are. The run writes exactly the files with a changed version. -/
theorem dryRun_predicts (t : FileTree) (paths : List String) (apart : paths.Pairwise t.Apart)
    (can : ∀ path ∈ paths, job.wet.CanWrite t path) :
    (job.dry.updateFiles t paths).2 = t ∧
      ((job.dry.updateFiles t paths).1.files =
          (job.wet.updateFiles t paths).1.files.map FileReport.unwritten ∧
        (job.dry.updateFiles t paths).1.errors = (job.wet.updateFiles t paths).1.errors) ∧
      job.dry.results t paths =
        (job.wet.results t paths).map (Except.map FileReport.unwritten) ∧
      ∀ r ∈ (job.wet.updateFiles t paths).1.files, r.written = r.changed := by
  obtain ⟨stays, same⟩ := updateFiles_dry job (.refl t) (fun _ _ => rfl) can apart
  have lists : (job.dry.updateFiles t paths).1 =
      ⟨(job.wet.updateFiles t paths).1.files.map FileReport.unwritten,
        (job.wet.updateFiles t paths).1.errors⟩ := by
    rw [fst_updateFiles, same, RunReport.ofResults_map, fst_updateFiles]
  refine ⟨stays, ⟨by rw [lists], by rw [lists]⟩, same, fun r member => ?_⟩
  simpa using written_of_mem_files job.wet member

/-- A folder with an empty file and one that says `module "m" {}`. -/
def twoFiles : FileTree :=
  .folder {} [("a", .file { bytes := .empty, mode := 0o644 }),
    ("b", .file { bytes := "module \"m\" \x7b\x7d".toUTF8, mode := 0o600 })]

/-- A version for every module. -/
def everyModule : Job :=
  { upgrades := [⟨.module, none, "2", [], [], []⟩], addMissing := true }

theorem canWrite_twoFiles : ∀ path ∈ ["/a", "/b"], everyModule.wet.CanWrite twoFiles path := by
  rw [List.forall_mem_cons, List.forall_mem_singleton]
  exact ⟨fun _ _ _ => rfl, fun _ _ _ => rfl⟩

theorem dryRun_predicts_twoFiles :
    (["/a", "/b"].Pairwise twoFiles.Apart ∧
        ∀ path ∈ ["/a", "/b"], everyModule.wet.CanWrite twoFiles path) ∧
      (everyModule.dry.updateFiles twoFiles ["/a", "/b"]).2 = twoFiles ∧
      ((everyModule.dry.updateFiles twoFiles ["/a", "/b"]).1.files =
          (everyModule.wet.updateFiles twoFiles ["/a", "/b"]).1.files.map FileReport.unwritten ∧
        (everyModule.dry.updateFiles twoFiles ["/a", "/b"]).1.errors =
          (everyModule.wet.updateFiles twoFiles ["/a", "/b"]).1.errors) ∧
      everyModule.dry.results twoFiles ["/a", "/b"] =
        (everyModule.wet.results twoFiles ["/a", "/b"]).map (Except.map FileReport.unwritten) ∧
      ∀ r ∈ (everyModule.wet.updateFiles twoFiles ["/a", "/b"]).1.files,
        r.written = r.changed := by
  have first : twoFiles.place "/a" = .ok ["a"] := by rfl
  have second : twoFiles.place "/b" = .ok ["b"] := by rfl
  have apart : ["/a", "/b"].Pairwise twoFiles.Apart := by
    simp [FileTree.Apart, first, second]
  exact ⟨⟨apart, canWrite_twoFiles⟩,
    dryRun_predicts everyModule twoFiles ["/a", "/b"] apart canWrite_twoFiles⟩

end Job

end TerraformPins
