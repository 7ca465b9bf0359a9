import TerraformPins.Proofs.Provenance
import TerraformPins.Proofs.Roundtrip
import TerraformPins.Proofs.Slot.Visible

/-!
# Whether a document is changed

An update says that it has changed a document as soon as one of its upgrades has written a version.
A later one may have written the first version back, so the text can be the same in the end. This is
the only way: a text that is the same belongs to versions that are the same.

The reason is that a text is read in one way. A quoted string ends where its quote is closed, and
where a version was missing the text goes on otherwise, so the first version that is not what it was
shows. Only a version that begins with a quote and is no quoted string, such as a template, can look
like one. It shows in a block that is read from its own text, since the version that is written
there is read again.

## Main definitions

* `Slot.Moves` — an upgrade writes a version at some moment
* `Document.Legible` — the blocks in which a version changes tell it by their text

## Main results

* `Document.changed_eq_true_iff` — a document is changed if a version is written
* `shows_of_stable` — what is written to a block that is read from its own text shows
* `Document.update_eq_self_of_text` — a legible document that prints the same is what it was
* `Job.changed_iff` — a document is changed if its text differs or what was written was taken back
-/

namespace TerraformPins

open Hcl

section Moves

variable {addMissing : Bool} {u : Upgrade} {us : List Upgrade} {s : Slot}

/-- At some moment an upgrade writes a version at a slot that was not there. -/
def Slot.Moves (addMissing : Bool) (us : List Upgrade) (s : Slot) : Prop :=
  ∃ done u later, us = done ++ u :: later ∧
    (done.foldl (Slot.step addMissing) s).step addMissing u ≠ done.foldl (Slot.step addMissing) s

theorem moves_cons_iff : s.Moves addMissing (u :: us) ↔
    s.step addMissing u ≠ s ∨ (s.step addMissing u).Moves addMissing us := by
  constructor
  · rintro ⟨done, v, later, split, moved⟩
    cases done with
    | nil =>
      obtain ⟨rfl, rfl⟩ := List.cons.inj split
      exact .inl moved
    | cons w done =>
      obtain ⟨rfl, rfl⟩ := List.cons.inj split
      exact .inr ⟨done, v, later, rfl, moved⟩
  · rintro (moved | ⟨done, v, later, rfl, moved⟩)
    · exact ⟨[], u, us, rfl, moved⟩
    · exact ⟨u :: done, v, later, rfl, moved⟩

/-- Changes are recorded at a slot exactly if it moves. -/
theorem slotChanges_ne_nil_iff : slotChanges addMissing us [s] ≠ [] ↔ s.Moves addMissing us := by
  induction us generalizing s with
  | nil =>
    exact ⟨fun h => absurd rfl h, fun ⟨done, _, _, split, _⟩ => by cases done <;> cases split⟩
  | cons u us ih =>
    rw [moves_cons_iff, slotChanges, records_singleton_cons, ← ih, ne_eq, List.append_eq_nil_iff,
      not_and_or, Option.toList_eq_nil_iff, change?_eq_none_iff]

/-- A slot that does not move stays as it is. -/
theorem foldl_step_of_not_moves (still : ¬ s.Moves addMissing us) :
    us.foldl (Slot.step addMissing) s = s := by
  induction us with
  | nil => rfl
  | cons u us ih =>
    rw [moves_cons_iff, not_or, not_not] at still
    rw [List.foldl_cons, still.1]
    rw [still.1] at still
    exact ih still.2

end Moves

namespace Document

variable {d : Document} {us : List Upgrade} {addMissing : Bool}

/-- A document is changed exactly if a version is written at one of its slots. -/
theorem changed_eq_true_iff :
    (d.update us addMissing).1.changed = true ↔ ∃ s ∈ d.slots, s.Moves addMissing us := by
  -- The numbered changes say at which slot a change was recorded.
  have recorded : (d.update us addMissing).1.changed = true ↔
      d.numberedChanges us addMissing ≠ [] := by
    rw [changed_update, ← map_numberedChanges]
    cases d.numberedChanges us addMissing <;> simp
  rw [recorded]
  constructor
  · intro some
    obtain ⟨⟨i, c⟩, member⟩ := List.exists_mem_of_ne_nil _ some
    obtain ⟨s, found, inside⟩ := mem_numbered.mp member
    exact ⟨s, List.mem_of_getElem? found,
      slotChanges_ne_nil_iff.mp (List.ne_nil_of_mem inside)⟩
  · rintro ⟨s, member, moves⟩
    obtain ⟨i, bound, rfl⟩ := List.getElem_of_mem member
    obtain ⟨c, inside⟩ := List.exists_mem_of_ne_nil _ (slotChanges_ne_nil_iff.mpr moves)
    exact List.ne_nil_of_mem (mem_numbered.mpr ⟨_, List.getElem?_eq_getElem bound, inside⟩)

/-- An update leaves a document as it is exactly if every slot comes back to what it was. -/
theorem update_eq_self_iff :
    (d.update us addMissing).2 = d ↔ ∀ s ∈ d.slots, us.foldl (Slot.step addMissing) s = s := by
  refine ⟨fun same s member => ?_, update_eq_self⟩
  have slots := (update_eq addMissing us d).2
  rw [same] at slots
  exact List.map_inj_left.mp (slots.symm.trans (List.map_id _).symm) s member

end Document

/-! ### Blocks that show what is written -/

section Structures

variable {x : Structure} {p : Writes} {t t' : Chars}

theorem write_block (layout : Layout) (word gap : Chars) (labels : List Label) (frame : Frame)
    (items : List Structure) : ∃ frame' items',
      structureShelf.write p (.block layout word gap labels frame items) =
        .block layout word gap labels frame' items' := by
  simp only [structureShelf, Shelf.within]
  split <;> exact ⟨_, _, rfl⟩

theorem eq_of_withLayout {y : Structure} (layouts : x.layout = y.layout)
    (same : x.withLayout {} = y.withLayout {}) : x = y := by
  cases x <;> cases y <;> simp_all [Structure.withLayout, Structure.layout]

/-- A slot that looks the same after a write holds what was written. -/
theorem held_of_look {s : Slot} {v : String} (same : (s.write v).look = s.look) :
    s.held = some (.text v.toList) := by
  rw [← Slot.changes_eq_false_iff, Site.changes, ← Slot.site_eq_of_look same, literal_write]
  simp

/-- A block that is read from its own text tells a new version when it is read again. -/
theorem repeats_of_stable (stable : x.Stable)
    (same : (structureShelf.write p x).chars ++ t = x.chars ++ t') :
    p.Repeats (structureShelf.slots x) := by
  have rereads := rereads_structure carried_settled
  have upper := Document.upper_of_stable stable (Document.settled_structureProviders stable)
  have looks := rereads.looks (rereads.good_write p upper)
  have layout := (keeps_structure p x).1
  have readable := readable_write_structure stable p
  -- A write keeps what stands in front of the block, so the texts are compared behind it.
  obtain ⟨rest, rest', cut⟩ : ∃ rest rest',
      (structureShelf.write p x).bareChars ++ rest = x.bareChars ++ rest' := by
    rw [Structure.chars_eq, Structure.chars_eq, layout, Layout.around, Layout.around] at same
    simp only [List.append_assoc] at same
    exact ⟨_, _, List.append_cancel_left same⟩
  have again : (structureShelf.write p x).asRead = x := by
    cases x with
    | attr => exact stable.written
    | block around word gap labels frame items =>
      obtain ⟨frame', items', shape⟩ := @write_block p around word gap labels frame items
      rw [shape] at cut readable ⊢
      -- Both texts begin alike, and what is read from the first one is read from the second one.
      have now := Reader.takes_item stable.readable rest' trivial
      have later := Reader.takes_item readable rest trivial
      rw [cut, now] at later
      have read := (Prod.mk.inj (Option.some.inj later)).1
      rw [stable.written] at read
      exact (eq_of_withLayout (by rw [layout_asRead, ← stable.written]; rfl) read).symm
  -- So the slots look the same with the writes as without them.
  rw [again, structureShelf.slots_write] at looks
  intro i s v found written
  have here := congrArg (·[i]?) looks
  simp only [List.getElem?_map, List.getElem?_mapIdx, found, Option.map_some, written,
    Slot.put_some, Option.some.injEq] at here
  exact held_of_look here.symm

/-- What is written to a block that is read from its own text shows. -/
theorem shows_of_stable (stable : x.Stable) :
    Shows Structure.chars (structureShelf.write p x) x := by
  rw [Shows, or_iff_not_imp_right]
  intro alike
  obtain ⟨t, t', same⟩ : ∃ t t', (structureShelf.write p x).chars ++ t = x.chars ++ t' := by
    simpa [Clash] using alike
  exact structureShelf.write_eq_self p x (repeats_of_stable stable same)

end Structures

/-- A document that consists of one block. -/
def Hcl.Structure.alone (x : Structure) : Document :=
  ⟨⟨⟨[], [], false, true⟩, [x]⟩⟩

namespace Document

variable {d : Document} {input : String} {us : List Upgrade} {addMissing : Bool}

/-- The blocks in which a version changes tell it by their text: a block is read from its own text
and no heredoc in it is without lines, or the slots that change in it are plain. -/
def Legible (d : Document) (us : List Upgrade) (addMissing : Bool) : Prop :=
  ∀ x ∈ d.body.items, (x.alone.Stable ∧ x.alone.Whole) ∨
    ∀ s ∈ structureShelf.slots x, us.foldl (Slot.step addMissing) s = s ∨ s.Plain

/-- Only plain slots of a structure are written, if the others come back to what they were. -/
theorem plain_writes {init rest : List Structure} {x : Structure}
    (items : d.body.items = init ++ x :: rest)
    (plain : ∀ s ∈ structureShelf.slots x, us.foldl (Slot.step addMissing) s = s ∨ s.Plain) :
    ((d.writes addMissing us).shift (init.flatMap structureShelf.slots).length).Plain
      (structureShelf.slots x) := by
  intro i s v found written
  obtain ⟨bound, rfl⟩ := List.getElem?_eq_some_iff.mp found
  have here := slots_getElem?_of_split items bound
  have last : (structureShelf.slots x)[i].written addMissing us = some v := by
    simpa only [Writes.shift, writes, here, Option.bind_some] using written
  rcases plain _ (List.getElem_mem bound) with same | plain
  · -- A slot that comes back although it is written holds a quoted string.
    rw [foldl_step_eq_put, last, Slot.put_some] at same
    intro node held
    have text := held_of_look (congrArg Slot.look same)
    exact .inl ⟨_, Option.some.inj (held.symm.trans text)⟩
  · exact plain

/-- A legible document that prints the same after an update is what it was. -/
theorem update_eq_self_of_text (read : read? input = some d) (legible : d.Legible us addMissing)
    (same : (d.update us addMissing).2.text = d.text) : (d.update us addMissing).2 = d := by
  rw [update_eq_write] at same ⊢
  have chars : (d.write (d.writes addMissing us)).body.chars = d.body.chars :=
    String.ofList_inj.mp same
  -- Each block is the same or shows that it is not, and then so do all of them.
  have each : List.Forall₂ (Shows Structure.chars)
      (structureShelf.writeList (d.writes addMissing us) d.body.items) d.body.items := by
    refine structureShelf.forall₂_writeList fun init x rest items => ?_
    have member : x ∈ d.body.items := by
      rw [items]
      exact List.mem_append_right _ List.mem_cons_self
    rcases legible x member with ⟨stable, whole⟩ | plain
    · exact shows_of_stable (stable.structures whole x List.mem_cons_self)
    · exact visible_structure x _ (parsed_of_read read x member) (plain_writes items plain)
  rcases shows_lines each d.body.frame.lastLineEnds with same | clash
  · exact congrArg Document.mk (Body.ext rfl same)
  · exact absurd chars (clash _ _)

/-- In a legible document a version that is not what it was shows in the text. -/
theorem text_ne_iff (read : read? input = some d) (legible : d.Legible us addMissing) :
    (d.update us addMissing).2.text ≠ d.text ↔
      ∃ s ∈ d.slots, us.foldl (Slot.step addMissing) s ≠ s := by
  constructor
  · intro differs
    by_contra none
    exact differs (congrArg text
      (update_eq_self fun s member => by_contra fun moved => none ⟨s, member, moved⟩))
  · rintro ⟨s, member, moved⟩ same
    exact moved (update_eq_self_iff.mp (update_eq_self_of_text read legible same) s member)

/-- An update that is not said to change a document leaves it as it is. -/
theorem update_eq_self_of_unchanged (unchanged : (d.update us addMissing).1.changed = false) :
    (d.update us addMissing).2 = d := by
  refine update_eq_self fun s member => foldl_step_of_not_moves fun moves => ?_
  rw [changed_eq_true_iff.mpr ⟨s, member, moves⟩] at unchanged
  cases unchanged

end Document

namespace Job

/-- When a document is said to be changed, and what this says about its text.

* A document is changed exactly if at some moment a version is written that was not there.
* A document that is not changed prints the same. It is the same in the end exactly if every slot
  comes back to what it held.
* If the document was read and is legible, it prints something else exactly if some slot does not
  come back. So it is changed exactly if it prints something else or a version was written and taken
  back.
* A file is reported as changed exactly if its document is, and then it is written unless the run is
  dry. It is reported if it can be written, should that be needed. -/
theorem changed_iff (job : Job) (d : Document) :
    ((job.updateDocument d).1.changed = true ↔
      ∃ s ∈ d.slots, s.Moves job.addMissing job.upgrades) ∧
    (((job.updateDocument d).1.changed = false → (job.updateDocument d).2.text = d.text) ∧
      ((job.updateDocument d).2 = d ↔
        ∀ s ∈ d.slots, job.upgrades.foldl (Slot.step job.addMissing) s = s)) ∧
    (∀ input, Document.read? input = some d → d.Legible job.upgrades job.addMissing →
      ((job.updateDocument d).2.text ≠ d.text ↔
        ∃ s ∈ d.slots, job.upgrades.foldl (Slot.step job.addMissing) s ≠ s) ∧
      ((job.updateDocument d).1.changed = true ↔ (job.updateDocument d).2.text ≠ d.text ∨
        ∃ s ∈ d.slots, s.Moves job.addMissing job.upgrades ∧
          job.upgrades.foldl (Slot.step job.addMissing) s = s)) ∧
    ∀ t path, load t path = .ok d →
      (∀ r u, job.updateFile t path = (.ok r, u) → ∃ place, t.place path = .ok place ∧
        r.changed = (job.updateDocument d).1.changed ∧
        (r.written = true ↔ r.changed = true ∧ job.dryRun = false) ∧
        u = if r.written then t.setBytes (job.updateDocument d).2.text.toUTF8 place else t) ∧
      (job.CanWrite t path → ∃ r u, job.updateFile t path = (.ok r, u)) := by
  have moves : (job.updateDocument d).1.changed = true ↔
      ∃ s ∈ d.slots, s.Moves job.addMissing job.upgrades := Document.changed_eq_true_iff
  have prints (unchanged : (job.updateDocument d).1.changed = false) :
      (job.updateDocument d).2.text = d.text :=
    congrArg Document.text (Document.update_eq_self_of_unchanged unchanged)
  refine ⟨moves, ⟨prints, Document.update_eq_self_iff⟩,
    fun input read legible => ⟨Document.text_ne_iff read legible, ?_⟩,
    fun t path loaded => ⟨fun r u updated => ?_, fun can => ⟨_, exists_updateFile can loaded⟩⟩⟩
  · constructor
    · intro changed
      obtain ⟨s, member, moved⟩ := moves.mp changed
      by_cases back : job.upgrades.foldl (Slot.step job.addMissing) s = s
      · exact .inr ⟨s, member, moved, back⟩
      · exact .inl ((Document.text_ne_iff read legible).mpr ⟨s, member, back⟩)
    · rintro (differs | ⟨s, member, moved, -⟩)
      · exact (Bool.eq_false_or_eq_true _).resolve_right fun unchanged => differs (prints unchanged)
      · exact moves.mpr ⟨s, member, moved⟩
  · obtain ⟨d', place, loaded', rfl, reached, left⟩ := updateFile_eq_ok updated
    obtain rfl := Except.ok.inj (loaded.symm.trans loaded')
    exact ⟨place, reached, rfl, by simp [report, FileReport.changed], left⟩

theorem changed_iff_twoProviders :
    ∃ d, (Document.read? Document.twoProviders = some d ∧
        d.Legible addVersionForA.upgrades addVersionForA.addMissing ∧
        load (folderWith Document.twoProviders) "/a.tf" = .ok d) ∧
      ((addVersionForA.updateDocument d).1.changed = true ↔
        (addVersionForA.updateDocument d).2.text ≠ d.text ∨
          ∃ s ∈ d.slots, s.Moves addVersionForA.addMissing addVersionForA.upgrades ∧
            addVersionForA.upgrades.foldl (Slot.step addVersionForA.addMissing) s = s) ∧
      ∃ r u place, addVersionForA.updateFile (folderWith Document.twoProviders) "/a.tf" =
        (.ok r, u) ∧ (folderWith Document.twoProviders).place "/a.tf" = .ok place ∧
        r.changed = (addVersionForA.updateDocument d).1.changed ∧
        (r.written = true ↔ r.changed = true ∧ addVersionForA.dryRun = false) ∧
        u = if r.written then
            (folderWith Document.twoProviders).setBytes
              (addVersionForA.updateDocument d).2.text.toUTF8 place
          else folderWith Document.twoProviders := by
  obtain ⟨d, read, stable, whole, -⟩ := Document.exists_twoProviders
  have evaluated : (Document.read? Document.twoProviders).map (fun d =>
      (d.body.items.length, d.body.frame)) = some (1, ⟨[], [], false, true⟩) := by
    decide +kernel
  rw [read] at evaluated
  obtain ⟨count, frame⟩ := Prod.mk.inj (Option.some.inj evaluated)
  -- The document is its only block.
  obtain ⟨x, items⟩ := List.length_eq_one_iff.mp count
  have alone : x.alone = d := congrArg Document.mk (Body.ext frame.symm items.symm)
  have legible : d.Legible addVersionForA.upgrades addVersionForA.addMissing := by
    intro y member
    rw [items, List.mem_singleton] at member
    rw [member, alone]
    exact .inl ⟨stable, whole⟩
  have loaded := load_folderWith read
  obtain ⟨-, -, inText, files⟩ := changed_iff addVersionForA d
  obtain ⟨done, reports⟩ := files _ _ loaded
  obtain ⟨r, u, updated⟩ := reports (canWrite_folderWith addVersionForA Document.twoProviders)
  obtain ⟨place, about⟩ := done r u updated
  exact ⟨d, ⟨read, legible, loaded⟩, (inText _ read legible).2, r, u, place, updated, about⟩

end Job

namespace Document

/-- A module with a version. -/
def oneModule : String :=
  "module \"a\" \x7b\n  source = \"s\"\n  version = \"1\"\n\x7d\n"

/-- The version `"2"` and then the version that was there. -/
def thereAndBack : List Upgrade :=
  [{ stringVersion with target := "2" }, { stringVersion with target := "1" }]

/-- A version is written and taken back. The document is changed, and its text is what it was. -/
theorem update_thereAndBack :
    ∃ d, read? oneModule = some d ∧ (d.update thereAndBack false).1.changed = true ∧
      (d.update thereAndBack false).2.text = d.text := by
  have evaluated : (read? oneModule).map (fun d =>
      ((d.update thereAndBack false).1.changed, (d.update thereAndBack false).2.text == d.text)) =
      some (true, true) := by
    decide +kernel
  obtain ⟨d, read, both⟩ := Option.map_eq_some_iff.mp evaluated
  obtain ⟨changed, same⟩ := Prod.mk.inj both
  exact ⟨d, read, changed, eq_of_beq same⟩

/-- A module whose version is a template, since an escape that means nothing cuts it in two. -/
def droppedEscape : String :=
  "module \"a\" \x7b\n  source = \"s\"\n  version = \"a\\qb\"\n\x7d\n"

/-- The version that this template prints like. -/
def undividedVersion : Upgrade :=
  { stringVersion with target := "ab" }

/-- The template prints like the string that replaces it, so the document is not legible. -/
theorem not_legible_droppedEscape :
    ∃ d, read? droppedEscape = some d ∧ ¬ d.Legible [undividedVersion] false := by
  have evaluated : (read? droppedEscape).map (fun d =>
      ((d.update [undividedVersion] false).2.text == d.text,
        d.slots.map fun s => (s.step false undividedVersion).site.literal == s.site.literal)) =
      some (true, [false]) := by
    decide +kernel
  obtain ⟨d, read, both⟩ := Option.map_eq_some_iff.mp evaluated
  obtain ⟨same, literals⟩ := Prod.mk.inj both
  obtain ⟨s, slots, differs⟩ := List.map_eq_singleton_iff.mp literals
  refine ⟨d, read, fun legible => ?_⟩
  have back := update_eq_self_iff.mp (update_eq_self_of_text read legible (eq_of_beq same)) s
    (slots ▸ List.mem_singleton_self s)
  rw [List.foldl_cons, List.foldl_nil] at back
  rw [back] at differs
  simp at differs

end Document

end TerraformPins
