import Mathlib.Data.List.Pairwise
import TerraformPins.Proofs.DryRun

/-!
# Files that do not disturb each other

A run over pairwise different files does with each of them what it would do with this file alone.
The files are taken one after another and rewritten while later ones are still to be read, but a
write is seen at one place only, also if it fails, and writes at different places can be done in any
order. So the reports and errors depend on the file tree of the beginning only, and what is left
behind does not depend on the order of the paths.

## Main definitions

* `FileTree.setAll` — a file tree after several writes
* `Job.result` — the report on a path, or its error
* `Job.writes` — what a run writes where

## Main results

* `FileTree.setBytes_comm` — writes at different places can be done in either order
* `Job.updateFiles_eq` — a run is the results of the paths and the writes, all seen from the
  beginning
* `Job.updateFiles_isolates` — files are processed in isolation and their order does not matter
-/

namespace TerraformPins

namespace FileTree

/-- Writes at different places can be done in either order. -/
theorem setBytes_comm (t : FileTree) (first second : ByteArray) {place other : Location}
    (differs : place ≠ other) :
    (t.setBytes first place).setBytes second other =
      (t.setBytes second other).setBytes first place := by
  induction place generalizing t other with
  | nil =>
    cases other with
    | nil => exact absurd rfl differs
    | cons name names => cases t <;> rfl
  | cons name names ih =>
    cases other with
    | nil => cases t <;> rfl
    | cons name' names' =>
      cases t with
      | file data => rfl
      | link target => rfl
      | folder access entries =>
        simp only [setBytes, List.map_map, folder.injEq, true_and]
        apply List.map_congr_left
        rintro ⟨n, t⟩ -
        simp only [Function.comp_apply, Prod.mk.injEq, true_and]
        -- Only an entry on both ways is written twice, and below it the places differ again.
        by_cases here : n = name
        · by_cases there : n = name'
          · have below : names ≠ names' := by
              rintro rfl
              exact differs (by rw [← here, ← there])
            simp only [if_pos here, if_pos there, ih t below]
          · simp only [if_pos here, if_neg there]
        · simp only [if_neg here]

/-- A file tree after several writes. -/
def setAll (t : FileTree) (writes : List Write) : FileTree :=
  writes.foldl (fun t w => t.setBytes w.2 w.1) t

section SetAll

variable {t : FileTree} {writes : List Write}

theorem alike_setAll (t : FileTree) (writes : List Write) : t.Alike (t.setAll writes) := by
  induction writes generalizing t with
  | nil => exact .refl t
  | cons w writes ih => exact (t.alike_setBytes w.2 w.1).trans (ih _)

/-- Writes leave the files at all other places. -/
theorem fileAt?_setAll_of_ne {place : Location} (differs : ∀ w ∈ writes, w.1 ≠ place) :
    (t.setAll writes).fileAt? place = t.fileAt? place := by
  induction writes generalizing t with
  | nil => rfl
  | cons w writes ih =>
    have elsewhere : place ≠ w.1 := fun same => differs w List.mem_cons_self same.symm
    rw [setAll, List.foldl_cons, ← setAll, ih fun v member =>
      differs v (List.mem_cons_of_mem w member), fileAt?_setBytes_of_ne _ t elsewhere]

/-- Writes at pairwise different places. -/
abbrev Scattered (writes : List Write) : Prop :=
  writes.Pairwise fun v w => v.1 ≠ w.1

/-- A file that is written holds the written bytes and has the permission bits it had. -/
theorem fileAt?_setAll_of_mem (scattered : Scattered writes) {w : Write} (member : w ∈ writes)
    {data : File} (found : t.fileAt? w.1 = some data) :
    (t.setAll writes).fileAt? w.1 = some { data with bytes := w.2 } := by
  induction writes generalizing t with
  | nil => cases member
  | cons v writes ih =>
    obtain ⟨here, later⟩ := List.pairwise_cons.mp scattered
    rw [setAll, List.foldl_cons, ← setAll]
    rcases List.mem_cons.mp member with rfl | inside
    · rw [fileAt?_setAll_of_ne fun v inside => (here v inside).symm]
      exact fileAt?_setBytes_self _ found
    · refine ih later inside ?_
      rw [fileAt?_setBytes_of_ne _ t (here w inside).symm]
      exact found

/-- The order of writes at different places does not matter. -/
theorem setAll_perm {writes' : List Write} (scattered : Scattered writes)
    (perm : writes.Perm writes') : t.setAll writes = t.setAll writes' := by
  refine perm.foldl_eq' (fun v vmem w wmem u => ?_) t
  by_cases same : v = w
  · rw [same]
  · have : Std.Symm fun v w : Write => v.1 ≠ w.1 := ⟨fun _ _ differs => differs.symm⟩
    exact setBytes_comm u v.2 w.2 (scattered.forall vmem wmem same)

end SetAll

/-- Paths that do not reach the same file in one order do not do so in the other. -/
theorem Apart.symm {t : FileTree} {p q : String} (apart : t.Apart p q) : t.Apart q p := by
  intro file same
  have there : t.isFile p = true := by
    rw [isFile, file?, ← same]
    exact file
  exact apart there same.symm

end FileTree

namespace Job

open FileTree

variable (job : Job) {t u : FileTree} {path : String} {paths : List String}

/-- The report on a path, or the error in its place. -/
def result (t : FileTree) (path : String) : Except FileError FileReport :=
  (job.updateFile t path).1

/-- What is written where for some paths. -/
def writes (t : FileTree) (paths : List String) : List Write :=
  paths.filterMap (job.write? t)

variable {job}

/-- A file that can be written is reported. -/
theorem exists_result {d : Document} (can : job.CanWrite t path) (loaded : load t path = .ok d) :
    ∃ r, job.result t path = .ok r := by
  obtain ⟨u, updated⟩ := exists_updateFile can loaded
  exact ⟨job.report path d, congrArg Prod.fst updated⟩

theorem snd_updateFile_eq_setAll (job : Job) (t : FileTree) (path : String) :
    (job.updateFile t path).2 = t.setAll (job.write? t path).toList := by
  rw [snd_updateFile]
  cases job.write? t path <;> rfl

/-- A run over pairwise different files that are still those of the beginning. -/
theorem updateFiles_of_alike (alike : t.Alike u)
    (same : ∀ path ∈ paths, t.file? path = u.file? path) (apart : paths.Pairwise t.Apart) :
    job.results u paths = paths.map (job.result t) ∧
      (job.updateFiles u paths).2 = u.setAll (job.writes t paths) := by
  -- The tree `t` is that of the beginning; `u` is what the paths so far have left.
  induction paths generalizing u with
  | nil => exact ⟨rfl, rfl⟩
  | cons path paths ih =>
    obtain ⟨here, later⟩ := List.pairwise_cons.mp apart
    obtain ⟨sameHere, sameLater⟩ := List.forall_mem_cons.mp same
    have sameNow : ∀ other ∈ paths, t.file? other = (job.updateFile u path).2.file? other := by
      intro other member
      rw [file?_updateFile job (alike.apart (here other member))]
      exact sameLater other member
    obtain ⟨treated, left⟩ := ih (alike.trans (alike_updateFile job u path)) sameNow later
    constructor
    · rw [results, treated, List.map_cons, result, fst_updateFile_congr alike sameHere]
    · rw [updateFiles_cons, left, snd_updateFile_eq_setAll, ← write?_congr alike sameHere, writes]
      cases written : job.write? t path <;> simp [writes, written, setAll]

/-- A run over pairwise different files gives the results of the paths and the writes, all seen from
the beginning. -/
theorem updateFiles_eq (apart : paths.Pairwise t.Apart) :
    job.updateFiles t paths =
      (.ofResults (paths.map (job.result t)), t.setAll (job.writes t paths)) := by
  obtain ⟨treated, left⟩ := updateFiles_of_alike (.refl t) (fun _ _ => rfl) apart
  exact Prod.ext (by rw [fst_updateFiles, treated]) left

/-- Pairwise different files are written at pairwise different places. -/
theorem scattered_writes (apart : paths.Pairwise t.Apart) : Scattered (job.writes t paths) := by
  refine List.Pairwise.filterMap (job.write? t) (fun p q apart v first w second => ?_) apart
  obtain ⟨-, data, -, -, there, found, -⟩ := write?_eq_some_iff.mp first
  obtain ⟨-, -, -, -, thereToo, -⟩ := write?_eq_some_iff.mp second
  have file : t.isFile p = true := isFile_of_file? (file?_eq_some_iff.mpr ⟨_, there, found⟩)
  intro same
  exact apart file (by rw [there, thereToo, same])

/-- What a write of a path leaves: the new text if the path is reported, and otherwise the new text,
a front part of it, or the bytes that were there. -/
theorem overwrite_of_written {d : Document} {place : Location} {data : File}
    (loaded : load t path = .ok d) (written : (job.report path d).written = true)
    (reached : t.place path = .ok place) (found : t.fileAt? place = some data) :
    let new := (job.updateDocument d).2.text.toUTF8
    ((∃ r, job.result t path = .ok r) → (data.overwrite new).2 = new) ∧
      ((data.overwrite new).2 = data.bytes ∨
        ∃ count, (data.overwrite new).2 = new.extract 0 count) := by
  intro new
  constructor
  · rintro ⟨r, reported⟩
    have updated : job.updateFile t path = (.ok r, (job.updateFile t path).2) :=
      Prod.ext reported rfl
    obtain ⟨d', place', loaded', rfl, reached', left⟩ := updateFile_eq_ok updated
    obtain rfl := Except.ok.inj (loaded.symm.trans loaded')
    obtain rfl := Except.ok.inj (reached.symm.trans reached')
    have wrote : job.write? t path = some (place, (data.overwrite new).2) :=
      write?_eq_some_iff.mpr ⟨d, data, loaded, written, reached, found, rfl⟩
    rw [snd_updateFile, wrote, if_pos written] at left
    have here := congrArg (FileTree.fileAt? · place) left
    simp only [fileAt?_setBytes_self _ found, Option.some.injEq, File.mk.injEq] at here
    exact here.1
  · -- All of the text is also a front part of it.
    rcases File.overwrite_cases data new with all | ⟨-, some⟩
    · refine .inr ⟨new.size, all.trans ?_⟩
      rw [ByteArray.extract_zero_size]
    · exact some

variable (job)

/-- Files are processed in isolation, and their order does not matter.

* The reports and errors are those of the paths, each as it is treated in the file tree of the
  beginning.
* Everything is where it was and is the same kind of thing, with the same permission bits.
* A file keeps its bytes if no path reaches it that has a document and a version to write.
* A file that is reported as written holds the text of the updated document, and it is reported if
  it can be written. If a write fails, the file holds what it held or a front part of this text.
  Nothing else about it changes.
* In every other order of the paths the file tree in the end is the same, and so is what each path
  gets.
* Without a path that has no document the file tree in the end is the same, and so is what the
  others get. -/
theorem updateFiles_isolates (t : FileTree) (paths : List String)
    (apart : paths.Pairwise t.Apart) :
    (job.updateFiles t paths).1 = .ofResults (paths.map (job.result t)) ∧
    t.Alike (job.updateFiles t paths).2 ∧
    (∀ place, (∀ path ∈ paths, t.place path = .ok place → ∀ d, load t path = .ok d →
        (job.report path d).written = false) →
      (job.updateFiles t paths).2.fileAt? place = t.fileAt? place) ∧
    (∀ path ∈ paths, ∀ d, load t path = .ok d → (job.report path d).written = true →
      ∃ place data bytes, t.place path = .ok place ∧ t.fileAt? place = some data ∧
        (job.updateFiles t paths).2.fileAt? place = some { data with bytes := bytes } ∧
        ((∃ r, job.result t path = .ok r) → bytes = (job.updateDocument d).2.text.toUTF8) ∧
        (job.CanWrite t path → ∃ r, job.result t path = .ok r) ∧
        (bytes = data.bytes ∨
          ∃ count, bytes = (job.updateDocument d).2.text.toUTF8.extract 0 count)) ∧
    (∀ order, paths.Perm order →
      (job.updateFiles t order).2 = (job.updateFiles t paths).2 ∧
        (job.updateFiles t order).1 = .ofResults (order.map (job.result t))) ∧
    (∀ front path back e, paths = front ++ path :: back → load t path = .error e →
      (job.updateFiles t (front ++ back)).2 = (job.updateFiles t paths).2 ∧
        (job.updateFiles t (front ++ back)).1 =
          .ofResults ((front ++ back).map (job.result t))) := by
  -- A run is a list of results and a list of writes at different places, both seen from the
  -- beginning.
  have run : job.updateFiles t paths =
      (.ofResults (paths.map (job.result t)), t.setAll (job.writes t paths)) := updateFiles_eq apart
  have scattered : Scattered (job.writes t paths) := scattered_writes apart
  refine ⟨by rw [run], ?_, fun place kept => ?_, fun path member d loaded written => ?_,
    fun order perm => ?_, ?_⟩
  · rw [run]
    exact t.alike_setAll _
  · rw [run]
    refine fileAt?_setAll_of_ne fun w member same => ?_
    obtain ⟨path, inside, writes⟩ := List.mem_filterMap.mp member
    obtain ⟨d, -, loaded, written, reached, -⟩ := write?_eq_some_iff.mp writes
    rw [kept path inside (same ▸ reached) d loaded] at written
    cases written
  · obtain ⟨place, data, -, reached, found, -⟩ := file_of_load loaded
    have writes : job.write? t path =
        some (place, (data.overwrite (job.updateDocument d).2.text.toUTF8).2) :=
      write?_eq_some_iff.mpr ⟨d, data, loaded, written, reached, found, rfl⟩
    obtain ⟨all, some⟩ := overwrite_of_written loaded written reached found
    refine ⟨place, data, _, reached, found, ?_, all, fun can => exists_result can loaded, some⟩
    rw [run]
    exact fileAt?_setAll_of_mem scattered (List.mem_filterMap.mpr ⟨path, member, writes⟩) found
  · have apart' : order.Pairwise t.Apart := (perm.pairwise_iff Apart.symm).mp apart
    rw [updateFiles_eq apart', run]
    exact ⟨(setAll_perm scattered (perm.filterMap _)).symm, rfl⟩
  · rintro front path back e rfl failed
    have sublist : (front ++ back).Sublist (front ++ path :: back) :=
      (List.sublist_cons_self path back).append_left front
    rw [updateFiles_eq (apart.sublist sublist), run]
    refine ⟨?_, rfl⟩
    simp only [writes, List.filterMap_append,
      List.filterMap_cons_none (write?_eq_none_of_error failed)]

/-- A module without version. -/
def bareModule : String :=
  "module \"m\" \x7b\x7d"

/-- The same module with the version. -/
def versionedModule : String :=
  "module \"m\" \x7b\n  version = \"2\"\n\x7d"

/-- A folder with a module without version, a file that is no HCL, a module with the version, and a
module without version in a file with little room. -/
def fourFiles : FileTree :=
  .folder {} [("a", .file { bytes := bareModule.toUTF8, mode := 0o644 }),
    ("b", .file { bytes := "=".toUTF8, mode := 0o644 }),
    ("c", .file { bytes := versionedModule.toUTF8, mode := 0o600 }),
    ("d", .file
      { bytes := bareModule.toUTF8, mode := 0o600, writeFault? := some (.room 7) })]

theorem apart_fourFiles : ["/a", "/b", "/c", "/d"].Pairwise fourFiles.Apart := by
  have first : fourFiles.place "/a" = .ok ["a"] := by rfl
  have second : fourFiles.place "/b" = .ok ["b"] := by rfl
  have third : fourFiles.place "/c" = .ok ["c"] := by rfl
  have fourth : fourFiles.place "/d" = .ok ["d"] := by rfl
  simp [FileTree.Apart, first, second, third, fourth]

/-- What the documents in these files are updated to. -/
theorem exists_fourFiles : ∃ bare versioned, Document.read? bareModule = some bare ∧
    Document.read? versionedModule = some versioned ∧
    (everyModule.updateDocument bare).1 = ⟨true, [⟨.module, "m", none, "2"⟩], []⟩ ∧
    (everyModule.updateDocument bare).2.text = versionedModule ∧
    (everyModule.updateDocument versioned).1 = {} := by
  have evaluated : (Document.read? bareModule).map (fun d =>
      ((everyModule.updateDocument d).1, (everyModule.updateDocument d).2.text)) =
        some (⟨true, [⟨.module, "m", none, "2"⟩], []⟩, versionedModule) ∧
      (Document.read? versionedModule).map (fun d => (everyModule.updateDocument d).1) =
        some {} := by
    decide +kernel
  obtain ⟨bare, read, both⟩ := Option.map_eq_some_iff.mp evaluated.1
  obtain ⟨versioned, readToo, stays⟩ := Option.map_eq_some_iff.mp evaluated.2
  obtain ⟨outcome, text⟩ := Prod.mk.inj both
  exact ⟨bare, versioned, read, readToo, outcome, text, stays⟩

/-- The first file gets the version, the second one leaves an error, the third one is kept, and of
the fourth one a part may be left. Nothing of this changes if the order does or if the second path
is left out. -/
theorem updateFiles_isolates_fourFiles :
    let paths := ["/a", "/b", "/c", "/d"]
    let ran := everyModule.updateFiles fourFiles paths
    paths.Pairwise fourFiles.Apart ∧
      ran.1 = .ofResults (paths.map (everyModule.result fourFiles)) ∧ fourFiles.Alike ran.2 ∧
      ran.2.fileAt? ["c"] = fourFiles.fileAt? ["c"] ∧
      ran.2.fileAt? ["a"] = some { bytes := versionedModule.toUTF8, mode := 0o644 } ∧
      (∃ data, fourFiles.fileAt? ["d"] = some data ∧ ∃ bytes,
        ran.2.fileAt? ["d"] = some { data with bytes := bytes } ∧ (bytes = data.bytes ∨
          ∃ count, bytes = versionedModule.toUTF8.extract 0 count)) ∧
      (∀ order, paths.Perm order → (everyModule.updateFiles fourFiles order).2 = ran.2 ∧
        (everyModule.updateFiles fourFiles order).1 =
          .ofResults (order.map (everyModule.result fourFiles))) ∧
      (load fourFiles "/b" = .error (.notHcl "/b") ∧
        (everyModule.updateFiles fourFiles ["/a", "/c", "/d"]).2 = ran.2 ∧
        (everyModule.updateFiles fourFiles ["/a", "/c", "/d"]).1 =
          .ofResults (["/a", "/c", "/d"].map (everyModule.result fourFiles))) := by
  intro paths ran
  obtain ⟨bare, versioned, read, readToo, outcome, text, stays⟩ := exists_fourFiles
  have inA : load fourFiles "/a" = .ok bare :=
    load_of_bytes (show fourFiles.place "/a" = .ok ["a"] by rfl) rfl rfl rfl read
  have inC : load fourFiles "/c" = .ok versioned :=
    load_of_bytes (show fourFiles.place "/c" = .ok ["c"] by rfl) rfl rfl rfl readToo
  have inD : load fourFiles "/d" = .ok bare :=
    load_of_bytes (show fourFiles.place "/d" = .ok ["d"] by rfl) rfl rfl rfl read
  have inB : load fourFiles "/b" = .error (.notHcl "/b") := by rfl
  have writes (path : String) : (everyModule.report path bare).written = true :=
    Bool.and_eq_true_iff.mpr ⟨by rw [outcome], rfl⟩
  obtain ⟨lists, alike, kept, left, orders, without⟩ :=
    updateFiles_isolates everyModule fourFiles paths apart_fourFiles
  refine ⟨apart_fourFiles, lists, alike, kept ["c"] ?_, ?_, ?_, orders, inB,
    without ["/a"] "/b" ["/c", "/d"] _ rfl inB⟩
  · -- Only the third path reaches this file, and its version is not changed.
    intro path member reached d loaded
    have only : path = "/c" := by
      simp only [paths, List.mem_cons, List.not_mem_nil, or_false] at member
      rcases member with rfl | rfl | rfl | rfl
      · exact absurd (Except.ok.inj (show Except.ok ["a"] = .ok ["c"] from reached)) (by decide)
      · exact absurd (Except.ok.inj (show Except.ok ["b"] = .ok ["c"] from reached)) (by decide)
      · rfl
      · exact absurd (Except.ok.inj (show Except.ok ["d"] = .ok ["c"] from reached)) (by decide)
    subst only
    obtain rfl := Except.ok.inj (inC.symm.trans loaded)
    simp [report, stays]
  · obtain ⟨place, data, bytes, reached, found, after, all, can, -⟩ :=
      left "/a" (by simp [paths]) bare inA (writes "/a")
    obtain rfl := Except.ok.inj (reached.symm.trans (show _ = Except.ok ["a"] by rfl))
    obtain rfl := Option.some.inj (found.symm.trans (show _ = some _ by rfl))
    rw [after, all (can fun _ _ _ => by rfl), text]
  · obtain ⟨place, data, bytes, reached, found, after, -, -, some⟩ :=
      left "/d" (by simp [paths]) bare inD (writes "/d")
    obtain rfl := Except.ok.inj (reached.symm.trans (show _ = Except.ok ["d"] by rfl))
    rw [text] at some
    exact ⟨data, found, bytes, after, some⟩

end Job

end TerraformPins
