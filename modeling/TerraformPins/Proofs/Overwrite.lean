import TerraformPins.Proofs.DryRun
import TerraformPins.Proofs.Slot.Stencil
import TerraformPins.Proofs.Update

/-!
# Files whose versions are replaced

An update that adds no version fills the holes of a stencil in another way: the versions that
changed are quoted strings, and everything else is printed as it was read. A file is printed as a
whole, so what is written differs from what was in the file where the printer has another spelling
than the author, such as for an escape in an unrelated string.

## Main definitions

* `Slot.written` — the version that upgrades leave at a slot
* `Writes.texts` — the texts of the versions after writes

## Main results

* `Document.update_eq_write` — an update of a document is one write
* `Job.updateFile_overwrites` — what is written to a file if no version is added
-/

namespace TerraformPins

open Hcl Document

/-- The version that upgrades leave at a slot, if they write one. -/
def Slot.written (addMissing : Bool) : List Upgrade → Slot → Option String
  | [], _ => none
  | u :: us, s => (written addMissing us (s.step addMissing u)).or (u.choice addMissing s.site)

/-- The texts of the versions at slots after writes over them. -/
def Writes.texts (p : Writes) (slots : List Slot) (i : Nat) : Chars :=
  ((p i).map quotedVersion).getD (heldText slots i)

section Update

variable (addMissing : Bool) (us : List Upgrade)

theorem foldl_step_eq_put (s : Slot) :
    us.foldl (Slot.step addMissing) s = s.put (s.written addMissing us) := by
  induction us generalizing s with
  | nil => rfl
  | cons u us ih =>
    rw [List.foldl_cons, ih, Slot.written, ← Slot.put_put, put_choice]

/-- The writes of upgrades at the slots of a document. -/
def Document.writes (d : Document) : Writes :=
  fun i => d.slots[i]?.bind (Slot.written addMissing us)

theorem Document.applyUpgrade_eq_write (u : Upgrade) (o : Outcome) (d : Document) :
    (applyUpgrade addMissing (o, d) u).2 =
      d.write fun i => d.slots[i]?.bind fun s => u.choice addMissing s.site := by
  rw [applyUpgrade, walk_eq, choices_visit]
  refine write_congr fun i bound => ?_
  simp [Writes.ofList, bound]

theorem Document.foldl_applyUpgrade_eq_write (o : Outcome) (d : Document) :
    (us.foldl (applyUpgrade addMissing) (o, d)).2 = d.write (d.writes addMissing us) := by
  induction us generalizing o d with
  | nil =>
    exact (write_eq_self fun i s v found written => by simp [writes, Slot.written] at written).symm
  | cons u us ih =>
    have first := applyUpgrade_eq_write addMissing u o d
    have stepped := (applyUpgrade_eq addMissing u o d).2
    rw [List.foldl_cons, ← Prod.eta (applyUpgrade addMissing (o, d) u), ih, first, write_write]
    rw [first] at stepped
    refine write_congr fun i bound => ?_
    simp [writes, stepped, Slot.written, bound]

/-- An update of a document is one write. -/
theorem Document.update_eq_write (d : Document) :
    (d.update us addMissing).2 = d.write (d.writes addMissing us) :=
  foldl_applyUpgrade_eq_write addMissing us {} d

/-- Without leave to add versions none is written where there is none. -/
theorem written_of_missing {s : Slot} (missing : s.held = none) : s.written false us = none := by
  induction us with
  | nil => rfl
  | cons u us ih =>
    have refuses : ¬ u.Admits false s.site.pin := by
      rintro ⟨-, admitted⟩
      unfold Upgrade.verdict at admitted
      split at admitted
      · cases admitted
      · split at admitted
        · cases admitted
        · simp [Slot.site, Site.ofValue, missing] at admitted
    have stays : s.step false u = s := if_neg refuses
    have nothing : u.choice false s.site = none := if_neg fun both => refuses both.1
    rw [Slot.written, stays, ih, nothing]
    rfl

theorem Document.overwrites_writes (d : Document) : (d.writes false us).Overwrites d.slots := by
  intro i s v found written missing
  simp [writes, found, written_of_missing us missing] at written

end Update

/-- A version that is written over is a quoted string, and the others stay. -/
theorem heldText_at {slots : List Slot} {p : Writes} {i : Nat} (bound : i < slots.length) :
    heldText (p.at slots) i = p.texts slots i := by
  cases written : p i <;>
    simp [heldText, heldAt, Writes.at, Writes.texts, written, bound, Slot.write, quotedVersion]

/-- A text that depends on writes, before and after writes over the versions. -/
theorem Drawn.texts {slots : List Slot} {g : Writes → Chars} (drawn : Drawn slots g) :
    ∃ st : Stencil, (∀ i, st.holes.count i = if (heldAt slots i).isSome then 1 else 0) ∧
      g (fun _ => none) = st.fill (heldText slots) ∧
      ∀ p : Writes, p.Overwrites slots → g p = st.fill (p.texts slots) := by
  obtain ⟨st, once, drawn⟩ := drawn
  have written : ∀ p : Writes, p.Overwrites slots → g p = st.fill (p.texts slots) := by
    intro p overwrites
    refine (drawn p overwrites).trans ?_
    exact Stencil.fill_congr fun i member => heldText_at (lt_of_mem_holes once member)
  have nothing : Writes.Overwrites (fun _ => none) slots := fun _ _ _ _ h => by cases h
  exact ⟨st, once, written _ nothing, written⟩

/-- The text of a document after writes over its versions. -/
theorem Document.text_write (d : Document) :
    ∃ st : Stencil, (∀ i, st.holes.count i = if (heldAt d.slots i).isSome then 1 else 0) ∧
      d.text = String.ofList (st.fill (heldText d.slots)) ∧
      ∀ p : Writes, p.Overwrites d.slots →
        (d.write p).text = String.ofList (st.fill (p.texts d.slots)) := by
  obtain ⟨st, once, unwritten, written⟩ := d.drawn.texts
  rw [write_eq_self fun i s v found h => by cases h] at unwritten
  exact ⟨st, once, congrArg String.ofList unwritten,
    fun p overwrites => congrArg String.ofList (written p overwrites)⟩

namespace Job

variable (job : Job) {t u : FileTree} {path : String} {r : FileReport}

/-- What is in a file that was written, if no version may be added.

* The file held a text, the text of a document.
* What the document prints is a stencil with one hole for each version. The printed document has in
  the holes what stood there, and the written one the quoted strings of the versions that were
  written and else what stood there. The first is the text of the file unless the printer spells
  something in another way.
* The versions that were written are those that the document holds then, and the slots without one
  are what they were.
* The file has its permission bits, and the other files are as they were. -/
theorem updateFile_overwrites (keeps : job.addMissing = false)
    (updated : job.updateFile t path = (.ok r, u)) (written : r.written = true) :
    ∃ place data text d, ∃ st : Stencil, ∃ p : Writes,
      (t.place path = .ok place ∧ t.fileAt? place = some data ∧
        String.fromUTF8? data.bytes = some text ∧ Document.read? text = some d) ∧
      ((∀ i, st.holes.count i = if (heldAt d.slots i).isSome then 1 else 0) ∧
        d.text = String.ofList (st.fill (heldText d.slots)) ∧
        u.fileAt? place = some
          { data with bytes := (String.ofList (st.fill (p.texts d.slots))).toUTF8 }) ∧
      (job.updateDocument d).2.slots = d.slots.mapIdx (fun i s => s.put (p i)) ∧
      ∀ other ≠ place, u.fileAt? other = t.fileAt? other := by
  obtain ⟨d, place, loaded, rfl, reached, left⟩ := updateFile_eq_ok updated
  obtain ⟨place', data, text, reached', found, -, decoded, parsed⟩ := file_of_load loaded
  obtain rfl := Except.ok.inj (reached.symm.trans reached')
  rw [if_pos written] at left
  obtain ⟨st, once, now, later⟩ := d.text_write
  have asWrite : (job.updateDocument d).2 = d.write (d.writes false job.upgrades) := by
    rw [updateDocument, keeps]
    exact d.update_eq_write false job.upgrades
  refine ⟨place, data, text, d, st, d.writes false job.upgrades, ⟨reached, found, decoded, parsed⟩,
    ⟨once, now, ?_⟩, ?_, fun other differs => ?_⟩
  · rw [left, FileTree.fileAt?_setBytes_self _ found, asWrite,
      later _ (d.overwrites_writes job.upgrades)]
  · rw [asWrite, Document.slots_write]
  · rw [left, FileTree.fileAt?_setBytes_of_ne _ _ differs]

/-- A module whose version is `"1"`, behind an attribute whose value is written with an escape. -/
def escapedLetter : String :=
  "x = \"\\u0041\"\nmodule \"a\" \x7b\n  source = \"s\"\n  version = \"1\"\n\x7d\n"

/-- A folder with this file. -/
def escapedFile : FileTree :=
  .folder {} [("a.tf", .file { bytes := escapedLetter.toUTF8, mode := 0o644 })]

/-- The version `"2"` for this module. -/
def secondVersion : Job :=
  { upgrades := [⟨.module, some "s", "2", [], [], []⟩] }

/-- The file is written, and what is written is shorter than what was there. -/
theorem updated_escapedFile :
    ∃ r u data, ∃ text : String, secondVersion.updateFile escapedFile "/a.tf" = (.ok r, u) ∧
      r.written = true ∧ u.fileAt? ["a.tf"] = some data ∧ data.bytes = text.toUTF8 ∧
      text.length = escapedLetter.length - 5 := by
  have evaluated : (read? escapedLetter).map (fun d =>
      ((secondVersion.report "/a.tf" d).written, (secondVersion.updateDocument d).2.text.length)) =
      some (true, escapedLetter.length - 5) := by
    decide +kernel
  obtain ⟨d, parsed, both⟩ := Option.map_eq_some_iff.mp evaluated
  obtain ⟨written, shorter⟩ := Prod.mk.inj both
  have here : escapedFile.place "/a.tf" = .ok ["a.tf"] := by rfl
  have loaded : load escapedFile "/a.tf" = .ok d :=
    load_of_bytes here rfl rfl rfl parsed
  have updated := updateFile_of_canWrite (fun _ _ _ => by rfl) loaded here written
  have found : escapedFile.fileAt? ["a.tf"] = some _ := rfl
  exact ⟨_, _, _, _, updated, written, FileTree.fileAt?_setBytes_self _ found, rfl, shorter⟩

theorem updateFile_overwrites_escapedFile :
    ∃ r u, (secondVersion.addMissing = false ∧
        secondVersion.updateFile escapedFile "/a.tf" = (.ok r, u) ∧ r.written = true) ∧
      ∃ place data text d, ∃ st : Stencil, ∃ p : Writes,
        (escapedFile.place "/a.tf" = .ok place ∧ escapedFile.fileAt? place = some data ∧
          String.fromUTF8? data.bytes = some text ∧ Document.read? text = some d) ∧
        ((∀ i, st.holes.count i = if (heldAt d.slots i).isSome then 1 else 0) ∧
          d.text = String.ofList (st.fill (heldText d.slots)) ∧
          u.fileAt? place = some
            { data with bytes := (String.ofList (st.fill (p.texts d.slots))).toUTF8 }) ∧
        (secondVersion.updateDocument d).2.slots = d.slots.mapIdx (fun i s => s.put (p i)) ∧
        ∀ other ≠ place, u.fileAt? other = escapedFile.fileAt? other := by
  obtain ⟨r, u, _, _, done, written, -⟩ := updated_escapedFile
  exact ⟨r, u, ⟨rfl, done, written⟩, updateFile_overwrites secondVersion rfl done written⟩

/-- The file is written with the new version, and with the letter itself in the place of its escape.
So the text around the version is not what it was. -/
theorem updateFile_escapedLetter :
    ∃ r u data, secondVersion.updateFile escapedFile "/a.tf" = (.ok r, u) ∧ r.written = true ∧
      u.fileAt? ["a.tf"] = some data ∧
      ¬ ∃ before after : String, escapedLetter = before ++ "\"1\"" ++ after ∧
        data.bytes = (before ++ "\"2\"" ++ after).toUTF8 := by
  obtain ⟨r, u, data, text, done, written, found, bytes, shorter⟩ := updated_escapedFile
  refine ⟨r, u, data, done, written, found, ?_⟩
  rintro ⟨before, after, source, target⟩
  -- Both versions have one digit, so the lengths would be the same.
  obtain rfl := String.toByteArray_inj.mp (bytes.symm.trans target)
  rw [source] at shorter
  simp only [String.length_append] at shorter
  have one : "\"1\"".length = 3 := by decide
  have two : "\"2\"".length = 3 := by decide
  omega

end Job

end TerraformPins
