import TerraformPins.FileUpdate
import TerraformPins.Proofs.FileTree

/-!
# What the update of a file does

An update reads one file and writes this one at most. What comes of it depends on this file only, so
it is the same in all trees that are alike and have the same file there. A write that fails leaves
an error in the place of the report, and may have changed the file.

A run keeps the reports and the errors in two lists. They are the two parts of one list that has an
entry for each path, and facts about single paths are stated for this list.

## Main definitions

* `Job.report` — the report on a file with a given document
* `Job.CanWrite` — a write to a file goes through, if there is one
* `FileTree.Write`, `Job.write?` — what the update of a file leaves where
* `Job.results`, `RunReport.ofResults` — a report or an error for each path of a run

## Main results

* `Job.updateFile_eq_ok` — what was done to a file that is reported
* `Job.exists_updateFile` — a file with a document is reported if it can be written
* `Job.updateFile_of_canWrite` — a file that can be written has all of the new text afterwards
* `Job.fst_updateFile_congr` — what comes of an update depends on the file only
* `Job.file?_updateFile` — the update of a file leaves what other paths reach
* `Job.fst_updateFiles` — the lists of a run are the two parts of its results
-/

namespace TerraformPins

namespace Job

/-- The report on a file with a given document. -/
def report (job : Job) (path : String) (d : Document) : FileReport :=
  let outcome := (job.updateDocument d).1
  ⟨path, outcome, outcome.changed && !job.dryRun⟩

/-- A write to the file that a path reaches goes through, if there is one. -/
def CanWrite (job : Job) (t : FileTree) (path : String) : Prop :=
  ∀ d, load t path = .ok d → (job.report path d).written = true →
    (t.writeText path (job.updateDocument d).2.text).1 = .ok ()

/-! ### Loading a file -/

section Load

variable {t u : FileTree} {path : String} {d : Document}

theorem load_congr (alike : t.Alike u) (same : t.file? path = u.file? path) :
    load t path = load u path := by
  unfold load
  rw [FileTree.readText_congr alike same]

theorem readText_of_load (loaded : load t path = .ok d) :
    ∃ text, t.readText path = .ok text ∧ Document.read? text = some d := by
  unfold load at loaded
  cases read : t.readText path with
  | error e => rw [read] at loaded; cases loaded
  | ok text =>
    cases parsed : Document.read? text with
    | none => simp [read, parsed, bind, Except.bind] at loaded
    | some d' =>
      simp [read, parsed, bind, Except.bind] at loaded
      exact ⟨text, rfl, by rw [parsed, loaded]⟩

/-- A document comes from a file that the path reaches, that can be read, and whose bytes are the
text of it. -/
theorem file_of_load (loaded : load t path = .ok d) :
    ∃ place data text, t.place path = .ok place ∧ t.fileAt? place = some data ∧
      data.readable = true ∧ String.fromUTF8? data.bytes = some text ∧
      Document.read? text = some d := by
  obtain ⟨text, read, parsed⟩ := readText_of_load loaded
  obtain ⟨place, data, reached, found, readable, decoded⟩ := FileTree.readText_eq_ok_iff.mp read
  exact ⟨place, data, text, reached, found, readable, decoded, parsed⟩

theorem load_of_readText {text : String} (read : t.readText path = .ok text)
    (parsed : Document.read? text = some d) : load t path = .ok d := by
  simp [load, read, parsed, bind, Except.bind]

/-- A readable file that holds a text has the document of this text. -/
theorem load_of_bytes {place : Location} {data : File} {text : String}
    (reached : t.place path = .ok place) (found : t.fileAt? place = some data)
    (readable : data.readable = true) (holds : data.bytes = text.toUTF8)
    (parsed : Document.read? text = some d) : load t path = .ok d :=
  load_of_readText (FileTree.readText_of_bytes reached found readable holds) parsed

end Load

/-! ### Updating a file -/

section File

variable {job : Job} {t u : FileTree} {path : String} {d : Document} {r : FileReport}

/-- A file without a document is left as it is. -/
theorem updateFile_of_error (job : Job) {e : FileError} (failed : load t path = .error e) :
    job.updateFile t path = (.error e, t) := by
  rw [updateFile, failed]

/-- A file that need not be written is left as it is. -/
theorem updateFile_of_unwritten (loaded : load t path = .ok d)
    (stays : (job.report path d).written = false) :
    job.updateFile t path = (.ok (job.report path d), t) := by
  have not : ¬ ((job.updateDocument d).1.changed && !job.dryRun) = true := by
    simpa [report] using stays
  simp only [updateFile, loaded, if_neg not]
  rfl

/-- A file that has to be written is reported if the write goes through. -/
theorem updateFile_of_written (loaded : load t path = .ok d)
    (written : (job.report path d).written = true) :
    job.updateFile t path =
      ((t.writeText path (job.updateDocument d).2.text).1.map fun _ => job.report path d,
        (t.writeText path (job.updateDocument d).2.text).2) := by
  simp only [updateFile, loaded, report] at written ⊢
  rw [if_pos written]

/-- What was done to a file that is reported: it has all of the new text, if it was written. -/
theorem updateFile_eq_ok (updated : job.updateFile t path = (.ok r, u)) :
    ∃ d place, load t path = .ok d ∧ r = job.report path d ∧ t.place path = .ok place ∧
      u = if r.written then t.setBytes (job.updateDocument d).2.text.toUTF8 place else t := by
  cases loaded : load t path with
  | error e =>
    rw [updateFile_of_error job loaded] at updated
    cases updated
  | ok d =>
    obtain ⟨place, -, -, reached, -⟩ := file_of_load loaded
    refine ⟨d, place, rfl, ?_⟩
    -- Only a write can change the tree, and a report tells that it went through.
    cases written : (job.report path d).written with
    | false =>
      rw [updateFile_of_unwritten loaded written] at updated
      cases updated
      exact ⟨rfl, reached, by rw [written]; rfl⟩
    | true =>
      rw [updateFile_of_written loaded written] at updated
      obtain ⟨reported, left⟩ := Prod.mk.inj updated
      cases done : (t.writeText path (job.updateDocument d).2.text).1 with
      | error e =>
        rw [done] at reported
        cases reported
      | ok =>
        rw [done] at reported
        obtain rfl := Except.ok.inj reported
        obtain ⟨place', -, reached', -, written'⟩ := FileTree.writeText_eq_ok (Prod.ext done left)
        obtain rfl := Except.ok.inj (reached.symm.trans reached')
        exact ⟨rfl, reached, by rw [written, if_pos rfl, written']⟩

/-- A file with a document is reported if it can be written. -/
theorem exists_updateFile (can : job.CanWrite t path) (loaded : load t path = .ok d) :
    ∃ u, job.updateFile t path = (.ok (job.report path d), u) := by
  cases written : (job.report path d).written with
  | false => exact ⟨t, updateFile_of_unwritten loaded written⟩
  | true =>
    refine ⟨_, (updateFile_of_written loaded written).trans (Prod.ext ?_ rfl)⟩
    rw [can d loaded written]
    rfl

/-- A file that has to be written and can be written has all of the new text afterwards. -/
theorem updateFile_of_canWrite {place : Location} (can : job.CanWrite t path)
    (loaded : load t path = .ok d) (reached : t.place path = .ok place)
    (written : (job.report path d).written = true) :
    job.updateFile t path = (.ok (job.report path d),
      t.setBytes (job.updateDocument d).2.text.toUTF8 place) := by
  obtain ⟨u, updated⟩ := exists_updateFile can loaded
  obtain ⟨d', place', loaded', -, reached', left⟩ := updateFile_eq_ok updated
  obtain rfl := Except.ok.inj (loaded.symm.trans loaded')
  obtain rfl := Except.ok.inj (reached.symm.trans reached')
  rw [updated, left, if_pos written]

/-- An error for a path is about this path. -/
theorem path_of_load_error {e : FileError} (failed : load t path = .error e) : e.path = path := by
  cases read : t.readText path with
  | ok text =>
    rw [load, read] at failed
    cases parsed : Document.read? text <;> simp [parsed, bind, Except.bind] at failed
    rw [← failed, FileError.path]
  | error e' =>
    rw [load, read] at failed
    obtain rfl := Except.error.inj failed
    exact FileTree.path_of_readText_error read

theorem path_of_updateFile_error {e : FileError} (failed : job.updateFile t path = (.error e, u)) :
    e.path = path := by
  cases loaded : load t path with
  | error e' =>
    rw [updateFile_of_error job loaded] at failed
    obtain rfl := Except.error.inj (Prod.mk.inj failed).1
    exact path_of_load_error loaded
  | ok d =>
    cases written : (job.report path d).written with
    | false =>
      rw [updateFile_of_unwritten loaded written] at failed
      cases failed
    | true =>
      rw [updateFile_of_written loaded written] at failed
      cases done : (t.writeText path (job.updateDocument d).2.text).1 with
      | ok =>
        rw [done] at failed
        cases failed
      | error e' =>
        rw [done] at failed
        obtain rfl := Except.error.inj (Prod.mk.inj failed).1
        exact FileTree.path_of_writeText_error done

/-- What comes of an update depends on the file only. -/
theorem fst_updateFile_congr (alike : t.Alike u) (same : t.file? path = u.file? path) :
    (job.updateFile t path).1 = (job.updateFile u path).1 := by
  have loadedSame := load_congr alike same
  cases loaded : load t path with
  | error e => rw [updateFile_of_error job loaded, updateFile_of_error job (loadedSame ▸ loaded)]
  | ok d =>
    have loadedToo : load u path = .ok d := loadedSame ▸ loaded
    cases written : (job.report path d).written with
    | false =>
      rw [updateFile_of_unwritten loaded written, updateFile_of_unwritten loadedToo written]
    | true =>
      rw [updateFile_of_written loaded written, updateFile_of_written loadedToo written,
        FileTree.fst_writeText_congr alike same]

end File

end Job

/-! ### What an update leaves -/

/-- A place and the bytes that are left there. -/
abbrev FileTree.Write := Location × ByteArray

namespace Job

open FileTree

variable {job : Job} {t u : FileTree} {path : String}

/-- What the update of a path leaves where, if it writes. -/
def write? (job : Job) (t : FileTree) (path : String) : Option Write := do
  let d ← (load t path).toOption
  let place ← (t.place path).toOption
  let data ← t.fileAt? place
  if (job.report path d).written then
    some (place, (data.overwrite (job.updateDocument d).2.text.toUTF8).2)
  else none

theorem write?_eq_some_iff {w : Write} :
    job.write? t path = some w ↔
      ∃ d data, load t path = .ok d ∧ (job.report path d).written = true ∧
        t.place path = .ok w.1 ∧ t.fileAt? w.1 = some data ∧
        (data.overwrite (job.updateDocument d).2.text.toUTF8).2 = w.2 := by
  obtain ⟨place, bytes⟩ := w
  have reaches (fault : Except IoFault Location) (x : Location) :
      fault.toOption = some x ↔ fault = .ok x := by
    cases fault <;> simp [Except.toOption]
  have loads (result : Except FileError Document) (x : Document) :
      result.toOption = some x ↔ result = .ok x := by
    cases result <;> simp [Except.toOption]
  simp only [write?, bind, Option.bind_eq_some_iff, reaches, loads, Option.ite_none_right_eq_some,
    Option.some.injEq, Prod.mk.injEq]
  constructor
  · rintro ⟨d, loaded, _, reached, data, found, written, rfl, left⟩
    exact ⟨d, data, loaded, written, reached, found, left⟩
  · rintro ⟨d, data, loaded, written, reached, found, left⟩
    exact ⟨d, loaded, place, reached, data, found, written, rfl, left⟩

/-- Nothing is written for a path without a document. -/
theorem write?_eq_none_of_error {e : FileError} (failed : load t path = .error e) :
    job.write? t path = none := by
  simp [write?, failed, Except.toOption]

/-- The file tree that an update leaves. -/
theorem snd_updateFile (job : Job) (t : FileTree) (path : String) :
    (job.updateFile t path).2 =
      match job.write? t path with
      | some w => t.setBytes w.2 w.1
      | none => t := by
  cases loaded : load t path with
  | error e => rw [updateFile_of_error job loaded, write?_eq_none_of_error loaded]
  | ok d =>
    cases written : (job.report path d).written with
    | false =>
      have nothing : job.write? t path = none := by
        rw [Option.eq_none_iff_forall_ne_some]
        intro w wrote
        obtain ⟨d', -, loaded', written', -⟩ := write?_eq_some_iff.mp wrote
        rw [loaded] at loaded'
        cases loaded'
        rw [written] at written'
        cases written'
      rw [updateFile_of_unwritten loaded written, nothing]
    | true =>
      obtain ⟨place, data, -, reached, found, -⟩ := file_of_load loaded
      have wrote : job.write? t path =
          some (place, (data.overwrite (job.updateDocument d).2.text.toUTF8).2) :=
        write?_eq_some_iff.mpr ⟨d, data, loaded, written, reached, found, rfl⟩
      rw [updateFile_of_written loaded written, wrote, writeText_of_file reached found]

/-- An update leaves everything where it was. -/
theorem alike_updateFile (job : Job) (t : FileTree) (path : String) :
    t.Alike (job.updateFile t path).2 := by
  rw [snd_updateFile]
  split
  · exact alike_setBytes _ t _
  · exact .refl t

/-- The update of a file leaves what other paths reach. -/
theorem file?_updateFile (job : Job) {other : String} (apart : t.Apart path other) :
    (job.updateFile t path).2.file? other = t.file? other := by
  rw [snd_updateFile]
  split
  case h_1 w wrote =>
    obtain ⟨d, data, -, -, reached, found, -⟩ := write?_eq_some_iff.mp wrote
    have file : t.isFile path = true :=
      isFile_of_file? (file?_eq_some_iff.mpr ⟨_, reached, found⟩)
    exact file?_setBytes w.2 reached file apart
  case h_2 => rfl

/-- What an update writes depends on the file only. -/
theorem write?_congr (alike : t.Alike u) (same : t.file? path = u.file? path) :
    job.write? t path = job.write? u path := by
  have reached := alike.place_eq path
  unfold file? at same
  unfold write?
  rw [load_congr alike (by rwa [file?, file?]), reached]
  rw [reached] at same
  cases there : u.place path with
  | error fault => rfl
  | ok place =>
    rw [there] at same
    have data : t.fileAt? place = u.fileAt? place := same
    simp only [bind, Except.toOption, Option.bind_some, data]

end Job

/-! ### A report or an error for each path -/

/-- The report of a run with the given results, one for each path. -/
def RunReport.ofResults (results : List (Except FileError FileReport)) : RunReport :=
  results.foldr cons {}

theorem RunReport.ofResults_map (f : FileReport → FileReport)
    (results : List (Except FileError FileReport)) :
    ofResults (results.map (Except.map f)) =
      ⟨(ofResults results).files.map f, (ofResults results).errors⟩ := by
  induction results with
  | nil => rfl
  | cons result results ih =>
    unfold ofResults at ih
    rw [List.map_cons, ofResults, List.foldr_cons, ih]
    cases result <;> rfl

namespace Job

variable (job : Job) {t : FileTree} {paths : List String}

/-- A report or an error for each path of a run, in order. -/
def results (t : FileTree) : List String → List (Except FileError FileReport)
  | [] => []
  | path :: paths => (job.updateFile t path).1 :: results (job.updateFile t path).2 paths

/-- A run takes the first path and then the others in the tree that is left. -/
theorem updateFiles_cons (t : FileTree) (path : String) (paths : List String) :
    job.updateFiles t (path :: paths) =
      (.cons (job.updateFile t path).1 (job.updateFiles (job.updateFile t path).2 paths).1,
        (job.updateFiles (job.updateFile t path).2 paths).2) :=
  rfl

/-- The lists of a run are the two parts of its results. -/
theorem fst_updateFiles (t : FileTree) (paths : List String) :
    (job.updateFiles t paths).1 = .ofResults (job.results t paths) := by
  induction paths generalizing t with
  | nil => rfl
  | cons path paths ih =>
    rw [updateFiles_cons, ih]
    rfl

/-- A file that is reported was written exactly if a version has changed and the run is not dry. -/
theorem written_of_mem_files {r : FileReport} (member : r ∈ (job.updateFiles t paths).1.files) :
    r.written = (r.changed && !job.dryRun) := by
  induction paths generalizing t with
  | nil => cases member
  | cons path paths ih =>
    rw [updateFiles_cons] at member
    cases updated : (job.updateFile t path).1 with
    | error e =>
      rw [updated] at member
      exact ih member
    | ok first =>
      rw [updated] at member
      rcases List.mem_cons.mp member with rfl | later
      · obtain ⟨d, -, -, rfl, -⟩ := updateFile_eq_ok (Prod.ext updated rfl)
        rfl
      · exact ih later

end Job

end TerraformPins
