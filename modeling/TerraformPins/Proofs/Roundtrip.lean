import TerraformPins.Proofs.Overwrite
import TerraformPins.Proofs.Slot.Reread

/-!
# Updates that go through the text

A document that is read from its own text can be updated, printed and read again. The document that
is read has the pins of the one that was printed, and further updates do to it what they do to that
one. So a file that was updated can be updated again, and two runs, one after the other, leave what
one run leaves.

Two things are in the way. A heredoc without lines is read only as long as its closing word does not
stand further down, and a version that is added can bring it there. And the only entry of an object
that was empty takes over the end of the line, which is a line feed for every entry.

## Main results

* `Document.update_readsBack` — what is printed after an update is read with the same pins
* `Job.updateFile_readsBack` — a file that was updated is read again
* `Document.update_append_through_text` — two updates with the text in between
-/

namespace TerraformPins

open Hcl

namespace Document

variable {d : Document}

/-- What is read after an update looks the same at its slots. -/
theorem looks_update (stable : d.Stable) (whole : d.Whole) (upgrades : List Upgrade)
    (addMissing : Bool) :
    read? (d.update upgrades addMissing).2.text = some (d.update upgrades addMissing).2.asRead ∧
      (d.update upgrades addMissing).2.asRead.slots.map Slot.look =
        (d.update upgrades addMissing).2.slots.map Slot.look := by
  have rereads := rereads_document carried_settled
  have ready := stable.ready whole (stable.settled_providers whole)
  rw [update_eq_write]
  exact ⟨read?_write stable whole _, rereads.looks (rereads.good_write _ ready)⟩

/-- A document that is read from its own text, without a heredoc that has no lines, is read from its
text again after every update, and has the same pins. -/
theorem update_readsBack (d : Document) (stable : d.Stable) (whole : d.Whole)
    (upgrades : List Upgrade) (addMissing : Bool) :
    ∃ d', read? (d.update upgrades addMissing).2.text = some d' ∧
      d'.pins = (d.update upgrades addMissing).2.pins := by
  obtain ⟨read, looks⟩ := looks_update stable whole upgrades addMissing
  exact ⟨_, read, pins_congr looks⟩

/-- Two providers, one with a source and one that is empty. -/
def twoProviders : String :=
  "terraform \x7b\n  required_providers \x7b\n" ++
    "    a = \x7b source = \"s\" \x7d\n    b = \x7b\n    \x7d\n  \x7d\n\x7d\n"

theorem exists_twoProviders :
    ∃ d, read? twoProviders = some d ∧ d.Stable ∧ d.Whole ∧ ∀ e ∈ d.providers, e.Smooth := by
  have evaluated : (read? twoProviders).map (fun d =>
      (d.text, decide (d.Whole ∧ ∀ e ∈ d.providers, e.Smooth))) = some (twoProviders, true) := by
    decide +kernel
  obtain ⟨d, read, both⟩ := Option.map_eq_some_iff.mp evaluated
  obtain ⟨text, sound⟩ := Prod.mk.inj both
  exact ⟨d, read, by rw [Stable, text, read], of_decide_eq_true sound⟩

/-- A version for the provider `a`. -/
def versionForA : Upgrade :=
  { kind := .provider, key := some "a", target := "5.0" }

/-- A version for the provider `b`. -/
def versionForB : Upgrade :=
  { kind := .provider, key := some "b", target := "6.0" }

theorem update_readsBack_twoProviders :
    ∃ d, (read? twoProviders = some d ∧ d.Stable ∧ d.Whole) ∧
      ∃ d', read? (d.update [versionForA, versionForB] true).2.text = some d' ∧
        d'.pins = (d.update [versionForA, versionForB] true).2.pins := by
  obtain ⟨d, read, stable, whole, -⟩ := exists_twoProviders
  exact ⟨d, ⟨read, stable, whole⟩, update_readsBack d stable whole [versionForA, versionForB] true⟩

/-- A module with a heredoc that has no lines and is closed by the word `version`. -/
def emptyHeredoc : String :=
  "module \"a\" \x7b\n  x = <<version\nversion\n  source = \"s\"\n\x7d\n"

/-- The key of the version that is added closes the heredoc, and what stands behind the key is left
over. -/
theorem update_readsBack_emptyHeredoc :
    ∃ d u, read? emptyHeredoc = some d ∧ d.Stable ∧ read? (d.update [u] true).2.text = none := by
  let u : Upgrade := { kind := .module, key := some "s", target := "5.0" }
  have evaluated : (read? emptyHeredoc).map (fun d =>
      (d.text, (read? (d.update [u] true).2.text).isNone)) = some (emptyHeredoc, true) := by
    decide +kernel
  obtain ⟨d, read, both⟩ := Option.map_eq_some_iff.mp evaluated
  obtain ⟨text, unread⟩ := Prod.mk.inj both
  exact ⟨d, u, read, by rw [Stable, text, read], Option.isNone_iff_eq_none.mp unread⟩

/-- Upgrades one after another are two updates without the text in between. -/
theorem update_append (d : Document) (xs ys : List Upgrade) (addMissing : Bool) :
    (d.update (xs ++ ys) addMissing).2 = ((d.update xs addMissing).2.update ys addMissing).2 ∧
      (d.update (xs ++ ys) addMissing).1.changes =
        (d.update xs addMissing).1.changes ++
          ((d.update xs addMissing).2.update ys addMissing).1.changes ∧
      (d.update (xs ++ ys) addMissing).1.refusals =
        (d.update xs addMissing).1.refusals ++
          ((d.update xs addMissing).2.update ys addMissing).1.refusals := by
  have run : d.update (xs ++ ys) addMissing =
      ys.foldl (applyUpgrade addMissing) ((d.update xs addMissing).1, (d.update xs addMissing).2) :=
    List.foldl_append
  obtain ⟨records, -⟩ :=
    foldl_applyUpgrade addMissing ys (d.update xs addMissing).1 (d.update xs addMissing).2
  have alone := (update_eq addMissing ys (d.update xs addMissing).2).1
  rw [run, records, alone]
  exact ⟨(foldl_applyUpgrade_eq_write _ _ _ _).trans (update_eq_write _ _ _).symm, rfl, rfl⟩

/-- What is printed after an update and after a second one of the document that is read from that
text is what is printed after both updates at once, and so are the records. The document is read
from its own text, no heredoc in it is without lines, and the line ends in the empty objects of its
providers are line feeds. -/
theorem update_append_through_text (d : Document) (stable : d.Stable) (whole : d.Whole)
    (smooth : ∀ e ∈ d.providers, e.Smooth) (xs ys : List Upgrade) (addMissing : Bool) :
    ∃ d', read? (d.update xs addMissing).2.text = some d' ∧
      (d'.update ys addMissing).2.text = (d.update (xs ++ ys) addMissing).2.text ∧
      (d.update (xs ++ ys) addMissing).1.changes =
        (d.update xs addMissing).1.changes ++ (d'.update ys addMissing).1.changes ∧
      (d.update (xs ++ ys) addMissing).1.refusals =
        (d.update xs addMissing).1.refusals ++ (d'.update ys addMissing).1.refusals := by
  obtain ⟨read, looks⟩ := looks_update stable whole xs addMissing
  obtain ⟨both, changes, refusals⟩ := d.update_append xs ys addMissing
  -- The first update leaves a document whose providers are settled and smooth. This is all that the
  -- second one needs, so the document is generalized.
  have ready : (d.update xs addMissing).2.Ready fun e => e.Settled ∧ e.Smooth := by
    rw [update_eq_write]
    exact (rereads_document carried_smooth).good_write _
      (stable.ready whole fun e member =>
        ⟨stable.settled_providers whole e member, smooth e member⟩)
  generalize (d.update xs addMissing).2 = e at read looks both changes refusals ready
  obtain ⟨records, writes⟩ := update_congr addMissing ys looks
  refine ⟨e.asRead, read, ?_, records ▸ changes, records ▸ refusals⟩
  have rereads := rereads_document carried_smooth
  have prints : ∀ e : Expr, e.Settled ∧ e.Smooth → e.node.asRead.chars = e.node.chars :=
    fun e h => Node.chars_asRead h.2
  rw [both, update_eq_write, update_eq_write, writes]
  generalize e.writes addMissing ys = q
  -- Both documents print what is read back from them, and this is the same document.
  have first : (e.asRead.write q).Ready _ := rereads.good_write q (rereads.good_read ready)
  have second : (e.write q).Ready _ := rereads.good_write q ready
  calc (e.asRead.write q).text
    _ = (e.asRead.write q).asRead.text := (first.text_asRead prints).symm
    _ = (e.write q).asRead.text := congrArg Document.text (rereads.read_write q ready)
    _ = (e.write q).text := second.text_asRead prints

theorem update_append_through_text_twoProviders :
    ∃ d, (read? twoProviders = some d ∧ d.Stable ∧ d.Whole ∧ ∀ e ∈ d.providers, e.Smooth) ∧
      ∃ d', read? (d.update [versionForA] true).2.text = some d' ∧
        (d'.update [versionForB] true).2.text =
        (d.update ([versionForA] ++ [versionForB]) true).2.text ∧
        (d.update ([versionForA] ++ [versionForB]) true).1.changes =
          (d.update [versionForA] true).1.changes ++ (d'.update [versionForB] true).1.changes ∧
        (d.update ([versionForA] ++ [versionForB]) true).1.refusals =
          (d.update [versionForA] true).1.refusals ++
          (d'.update [versionForB] true).1.refusals := by
  obtain ⟨d, read, stable, whole, smooth⟩ := exists_twoProviders
  exact ⟨d, ⟨read, stable, whole, smooth⟩,
    update_append_through_text d stable whole smooth [versionForA] [versionForB] true⟩

/-- An empty provider whose brace stands on the next line, behind a carriage return and a line
feed. -/
def carriageReturn : String :=
  "terraform \x7b\n  required_providers \x7b\n    aws = \x7b\r\n    \x7d\n  \x7d\n\x7d\n"

/-- The carriage return stays in two updates at once. With the text in between it is lost. -/
theorem update_append_through_text_carriageReturn :
    ∃ d d' u v, read? carriageReturn = some d ∧ d.Stable ∧
      read? (d.update [u] true).2.text = some d' ∧
      (d'.update [v] true).2.text ≠ (d.update ([u] ++ [v]) true).2.text := by
  let u : Upgrade := { kind := .provider, key := some "aws", target := "5.0" }
  let v : Upgrade := { kind := .provider, key := some "aws", target := "6.0" }
  have evaluated : (read? carriageReturn).map (fun d =>
      (d.text, (read? (d.update [u] true).2.text).map fun d' =>
        (d'.update [v] true).2.text == (d.update ([u] ++ [v]) true).2.text)) =
      some (carriageReturn, some false) := by
    decide +kernel
  obtain ⟨d, read, both⟩ := Option.map_eq_some_iff.mp evaluated
  obtain ⟨text, again⟩ := Prod.mk.inj both
  obtain ⟨d', reread, differs⟩ := Option.map_eq_some_iff.mp again
  exact ⟨d, d', u, v, read, by rw [Stable, text, read], reread, ne_of_beq_false differs⟩

end Document

namespace Job

variable {job : Job} {t u : FileTree} {path : String} {d d' : Document} {place : Location}

/-- A file that had a document and was written has the written text. -/
theorem readText_of_written {text : String} (loaded : load t path = .ok d)
    (reached : t.place path = .ok place) (left : u = t.setBytes text.toUTF8 place) :
    u.readText path = .ok text := by
  obtain ⟨place', data, -, reached', found, readable, -⟩ := file_of_load loaded
  obtain rfl := Except.ok.inj (reached.symm.trans reached')
  subst left
  have there := (FileTree.alike_setBytes text.toUTF8 t place).place_eq path
  exact FileTree.readText_of_bytes (there.symm.trans reached)
    (FileTree.fileAt?_setBytes_self _ found) readable rfl

/-- What is read from a file that was written is what is read from the written text. -/
theorem load_of_written {text : String} (loaded : load t path = .ok d)
    (reached : t.place path = .ok place) (left : u = t.setBytes text.toUTF8 place)
    (parsed : Document.read? text = some d') : load u path = .ok d' :=
  load_of_readText (readText_of_written loaded reached left) parsed

/-- A file with a document that is read from its own text, without a heredoc that has no lines, is
read again when it has been updated, and what was written has the pins of the updated document. It
is updated if it can be written. -/
theorem updateFile_readsBack (job : Job) (loaded : load t path = .ok d) (stable : d.Stable)
    (whole : d.Whole) :
    (∀ r u, job.updateFile t path = (.ok r, u) → ∃ d', load u path = .ok d' ∧
      (r.written = true → d'.pins = (job.updateDocument d).2.pins)) ∧
    (job.CanWrite t path → ∃ r u, job.updateFile t path = (.ok r, u)) := by
  refine ⟨fun r u updated => ?_, fun can => ⟨_, exists_updateFile can loaded⟩⟩
  obtain ⟨d', place, loaded', rfl, reached, left⟩ := updateFile_eq_ok updated
  obtain rfl := Except.ok.inj (loaded.symm.trans loaded')
  cases written : (job.report path d).written with
  | false =>
    -- Nothing was written, so the file still holds the text it was read from.
    rw [written] at left
    exact ⟨d, left ▸ loaded, fun h => absurd h Bool.false_ne_true⟩
  | true =>
    rw [written, if_pos rfl] at left
    obtain ⟨read, looks⟩ := Document.looks_update stable whole job.upgrades job.addMissing
    exact ⟨_, load_of_written loaded reached left read, fun _ => Document.pins_congr looks⟩

/-- A folder with a file that holds a text. -/
def folderWith (text : String) : FileTree :=
  .folder {} [("a.tf", .file { bytes := text.toUTF8, mode := 0o644 })]

theorem load_folderWith {text : String} (parsed : Document.read? text = some d) :
    load (folderWith text) "/a.tf" = .ok d :=
  load_of_bytes (show (folderWith text).place "/a.tf" = .ok ["a.tf"] by rfl) rfl rfl rfl parsed

theorem canWrite_folderWith (job : Job) (text : String) : job.CanWrite (folderWith text) "/a.tf" :=
  fun _ _ _ => by rfl

/-- A run that adds a version to the provider `a`. -/
def addVersionForA : Job :=
  { upgrades := [Document.versionForA], addMissing := true }

theorem updateFile_readsBack_twoProviders :
    ∃ d, (load (folderWith Document.twoProviders) "/a.tf" = .ok d ∧ d.Stable ∧ d.Whole) ∧
      ∃ r u d', addVersionForA.updateFile (folderWith Document.twoProviders) "/a.tf" = (.ok r, u) ∧
        load u "/a.tf" = .ok d' ∧
        (r.written = true → d'.pins = (addVersionForA.updateDocument d).2.pins) := by
  obtain ⟨d, read, stable, whole, -⟩ := Document.exists_twoProviders
  have loaded := load_folderWith read
  obtain ⟨again, reports⟩ := updateFile_readsBack addVersionForA loaded stable whole
  obtain ⟨r, u, updated⟩ := reports (canWrite_folderWith addVersionForA Document.twoProviders)
  obtain ⟨d', reread, pins⟩ := again r u updated
  exact ⟨d, ⟨loaded, stable, whole⟩, r, u, d', updated, reread, pins⟩

theorem load_of_unread {text : String} (held : t.readText path = .ok text)
    (unread : Document.read? text = none) :
    load t path = .error (.notHcl path) := by
  simp [load, held, unread, bind, Except.bind]

/-- An object in which a key is repeated, in front of a module with a version. -/
def repeatedKey : String :=
  "x = \x7b a = 1, b = 2, a = 3 \x7d\n" ++
    "module \"a\" \x7b\n  source = \"s\"\n  version = \"1\"\n\x7d\n"

/-- The last value of the key comes to stand first, with what ended it in front of the brace. What
is written is not read again. -/
theorem updateFile_repeatedKey :
    ∃ r u, secondVersion.updateFile (folderWith repeatedKey) "/a.tf" = (.ok r, u) ∧
      r.written = true ∧ load u "/a.tf" = .error (.notHcl "/a.tf") := by
  have evaluated : (Document.read? repeatedKey).map (fun d =>
      ((secondVersion.report "/a.tf" d).written,
        (Document.read? (secondVersion.updateDocument d).2.text).isNone)) = some (true, true) := by
    decide +kernel
  obtain ⟨d, parsed, both⟩ := Option.map_eq_some_iff.mp evaluated
  obtain ⟨written, unread⟩ := Prod.mk.inj both
  have loaded := load_folderWith parsed
  have here : (folderWith repeatedKey).place "/a.tf" = .ok ["a.tf"] := by rfl
  have updated := updateFile_of_canWrite (canWrite_folderWith secondVersion repeatedKey) loaded here
    written
  exact ⟨_, _, updated, written, load_of_unread (readText_of_written loaded here rfl)
    (Option.isNone_iff_eq_none.mp unread)⟩

end Job

end TerraformPins
