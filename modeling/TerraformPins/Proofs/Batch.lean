import TerraformPins.Batch
import TerraformPins.Proofs.Text

/-!
# Batches that are not valid

A draft of a batch is refused exactly if it asks for nothing or if one of its entries lacks a
required field, wherever the entry stands and whatever the others say.

## Main definitions

* `Unfilled` — a field that is missing or blank
* `DraftEntry.Lacks` — an entry that lacks a required field
* `BatchDraft.Invalid` — a draft that asks for nothing or has such an entry

## Main results

* `BatchDraft.check_eq_error_iff` — a draft is refused exactly if it is not valid
* `BatchDraft.upgrades_of_check` — the upgrades of a batch are those of its sections
-/

namespace TerraformPins

/-- A list is mapped with an error if one of its members is. -/
theorem mapM_eq_error_iff {α β ε : Type} {f : α → Except ε β} {xs : List α} :
    (∃ e, xs.mapM f = .error e) ↔ ∃ x ∈ xs, ∃ e, f x = .error e := by
  induction xs with
  | nil => simp [pure, Except.pure]
  | cons x xs ih =>
    rw [List.mapM_cons]
    cases here : f x with
    | error e => simp [here, bind, Except.bind]
    | ok y =>
      cases later : xs.mapM f with
      | error e =>
        have wrong := ih.mp ⟨e, later⟩
        simpa [here, bind, Except.bind] using wrong
      | ok ys =>
        have right : ¬ ∃ x ∈ xs, ∃ e, f x = .error e := fun wrong => by
          simpa [later] using ih.mpr wrong
        simpa [here, bind, Except.bind, pure, Except.pure] using right

theorem mapM_cons_eq_ok {α β ε : Type} {f : α → Except ε β} {x : α} {xs : List α} {ys : List β}
    (mapped : (x :: xs).mapM f = .ok ys) :
    ∃ y rest, f x = .ok y ∧ xs.mapM f = .ok rest ∧ ys = y :: rest := by
  rw [List.mapM_cons] at mapped
  cases here : f x with
  | error e => simp [here, bind, Except.bind] at mapped
  | ok y =>
    cases later : xs.mapM f with
    | error e => simp [here, later, bind, Except.bind] at mapped
    | ok rest =>
      simp only [here, later, bind, Except.bind, pure, Except.pure, Except.ok.injEq] at mapped
      exact ⟨y, rest, rfl, rfl, mapped.symm⟩

/-- A list that is mapped keeps its length. -/
theorem length_of_mapM {α β ε : Type} {f : α → Except ε β} {xs : List α} {ys : List β}
    (mapped : xs.mapM f = .ok ys) : ys.length = xs.length := by
  induction xs generalizing ys with
  | nil =>
    cases mapped
    rfl
  | cons x xs ih =>
    obtain ⟨y, rest, -, later, rfl⟩ := mapM_cons_eq_ok mapped
    rw [List.length_cons, List.length_cons, ih later]

/-- What it is mapped to comes from its members. -/
theorem exists_of_mem_mapM {α β ε : Type} {f : α → Except ε β} {xs : List α} {ys : List β}
    (mapped : xs.mapM f = .ok ys) {y : β} (member : y ∈ ys) : ∃ x ∈ xs, f x = .ok y := by
  induction xs generalizing ys with
  | nil =>
    cases mapped
    cases member
  | cons x xs ih =>
    obtain ⟨first, rest, here, later, rfl⟩ := mapM_cons_eq_ok mapped
    rcases List.mem_cons.mp member with rfl | inside
    · exact ⟨x, List.mem_cons_self, here⟩
    · obtain ⟨z, there, same⟩ := ih later inside
      exact ⟨z, List.mem_cons_of_mem x there, same⟩

/-- A field is not filled if it is missing or blank. -/
def Unfilled (field : Option String) : Prop :=
  ∀ text, field = some text → ∀ c ∈ text.toList, isBlank c = true

/-- A field counts as unfilled if it is missing or blank. -/
theorem filled?_eq_none_iff {field : Option String} : filled? field = none ↔ Unfilled field := by
  have blank : ∀ text : String, trimmed text = "" ↔ ∀ c ∈ text.toList, isBlank c = true := by
    intro text
    rw [trimmed, ← String.toList_inj, String.toList_ofList]
    exact trimWhile_eq_nil_iff
  cases field with
  | none => simp [filled?, Unfilled]
  | some text => simp [filled?, Unfilled, Option.filter_eq_none_iff, blank]

namespace DraftEntry

/-- An entry lacks a required field of its section. -/
def Lacks (part : BatchSection) (e : DraftEntry) : Prop :=
  (part.keyField? ≠ none ∧ Unfilled e.key) ∨ Unfilled e.version

theorem check_eq_error_iff {part : BatchSection} {index : Nat} {e : DraftEntry} :
    (∃ fault, e.check part index = .error fault) ↔ e.Lacks part := by
  rw [Lacks, ← filled?_eq_none_iff, ← filled?_eq_none_iff]
  cases part <;> cases key : filled? e.key <;> cases version : filled? e.version <;>
    simp [check, BatchSection.keyField?, key, version, bind, Except.bind, pure, Except.pure,
      Functor.map, Except.map]

/-- The check of a section fails exactly if one of its entries lacks a field. -/
theorem checkAll_eq_error_iff {part : BatchSection} {entries : List DraftEntry} :
    (∃ fault, checkAll part entries = .error fault) ↔ ∃ e ∈ entries, e.Lacks part := by
  rw [checkAll, mapM_eq_error_iff]
  constructor
  · rintro ⟨⟨e, index⟩, member, wrong⟩
    exact ⟨e, (List.mem_zipIdx' member).2 ▸ List.getElem_mem _, check_eq_error_iff.mp wrong⟩
  · rintro ⟨e, member, lacks⟩
    obtain ⟨index, bound, rfl⟩ := List.getElem_of_mem member
    exact ⟨(entries[index], index), List.mem_zipIdx_iff_getElem?.mpr (by simp [bound]),
      check_eq_error_iff.mpr lacks⟩

/-- A section that passes has an upgrade for every entry. -/
theorem length_checkAll {part : BatchSection} {entries : List DraftEntry} {us : List Upgrade}
    (checked : checkAll part entries = .ok us) : us.length = entries.length := by
  rw [length_of_mapM checked, List.length_zipIdx]

/-- An entry asks for an upgrade of the kind of its section. -/
theorem kind_of_check {part : BatchSection} {index : Nat} {e : DraftEntry} {u : Upgrade}
    (checked : e.check part index = .ok u) : u.kind = part.kind := by
  cases part <;> cases key : filled? e.key <;> cases version : filled? e.version <;>
    simp [check, BatchSection.keyField?, key, version, bind, Except.bind, pure, Except.pure,
      Functor.map, Except.map] at checked <;> simp [← checked]

theorem kind_of_checkAll {part : BatchSection} {entries : List DraftEntry} {us : List Upgrade}
    (checked : checkAll part entries = .ok us) : ∀ u ∈ us, u.kind = part.kind := by
  intro u member
  obtain ⟨x, -, same⟩ := exists_of_mem_mapM checked member
  exact kind_of_check same

end DraftEntry

namespace BatchDraft

/-- The entries of a section. -/
def entries (d : BatchDraft) : BatchSection → List DraftEntry
  | .modules => d.modules
  | .providers => d.providers
  | .terraform => d.terraform

/-- A draft is not valid if it has no entries, or an entry that lacks a required field. -/
def Invalid (d : BatchDraft) : Prop :=
  (∀ part, d.entries part = []) ∨ ∃ part, ∃ e ∈ d.entries part, e.Lacks part

/-- The check of a draft fails exactly if the draft is invalid. -/
theorem check_eq_error_iff {d : BatchDraft} : (∃ fault, d.check = .error fault) ↔ d.Invalid := by
  have lacking : ∀ part, (∃ fault, DraftEntry.checkAll part (d.entries part) = .error fault) →
      d.Invalid := fun part wrong => .inr ⟨part, DraftEntry.checkAll_eq_error_iff.mp wrong⟩
  rw [check]
  cases modules : DraftEntry.checkAll .modules d.modules with
  | error e => exact ⟨fun _ => lacking .modules ⟨e, modules⟩, fun _ => ⟨e, rfl⟩⟩
  | ok us =>
    cases providers : DraftEntry.checkAll .providers d.providers with
    | error e => exact ⟨fun _ => lacking .providers ⟨e, providers⟩, fun _ => ⟨e, rfl⟩⟩
    | ok vs =>
      cases terraform : DraftEntry.checkAll .terraform d.terraform with
      | error e => exact ⟨fun _ => lacking .terraform ⟨e, terraform⟩, fun _ => ⟨e, rfl⟩⟩
      | ok ws =>
        -- All sections pass, so a draft is refused here only if it has no entries.
        have complete : ¬ ∃ part, ∃ e ∈ d.entries part, e.Lacks part := by
          rintro ⟨part, e, member, lacks⟩
          obtain ⟨fault, wrong⟩ := DraftEntry.checkAll_eq_error_iff.mpr ⟨e, member, lacks⟩
          cases part
          · rw [entries, modules] at wrong; cases wrong
          · rw [entries, providers] at wrong; cases wrong
          · rw [entries, terraform] at wrong; cases wrong
        have counts : (us ++ vs ++ ws).isEmpty = true ↔ ∀ part, d.entries part = [] := by
          have us := DraftEntry.length_checkAll modules
          have vs := DraftEntry.length_checkAll providers
          have ws := DraftEntry.length_checkAll terraform
          rw [List.isEmpty_iff_length_eq_zero, List.length_append, List.length_append, us, vs, ws]
          constructor
          · intro nothing part
            apply List.eq_nil_of_length_eq_zero
            cases part <;> simp only [entries] <;> omega
          · intro nothing
            have modules := congrArg List.length (nothing .modules)
            have providers := congrArg List.length (nothing .providers)
            have terraform := congrArg List.length (nothing .terraform)
            simp only [entries, List.length_nil] at modules providers terraform
            omega
        rw [Invalid, or_iff_left complete, ← counts]
        show (∃ fault, (if (us ++ vs ++ ws).isEmpty = true then Except.error BatchError.noUpgrades
          else Except.ok _) = Except.error fault) ↔ _
        cases (us ++ vs ++ ws).isEmpty <;> simp

/-- The upgrades of a batch are those of its sections. -/
theorem upgrades_of_check {d : BatchDraft} {b : Batch} (checked : d.check = .ok b) :
    ∃ ms ps ts, DraftEntry.checkAll .modules d.modules = .ok ms ∧
      DraftEntry.checkAll .providers d.providers = .ok ps ∧
      DraftEntry.checkAll .terraform d.terraform = .ok ts ∧ b.upgrades = ms ++ ps ++ ts := by
  unfold check at checked
  cases modules : DraftEntry.checkAll .modules d.modules with
  | error e => simp [modules, bind, Except.bind] at checked
  | ok ms =>
    cases providers : DraftEntry.checkAll .providers d.providers with
    | error e => simp [modules, providers, bind, Except.bind] at checked
    | ok ps =>
      cases terraform : DraftEntry.checkAll .terraform d.terraform with
      | error e => simp [modules, providers, terraform, bind, Except.bind] at checked
      | ok ts =>
        simp only [modules, providers, terraform, bind, Except.bind] at checked
        refine ⟨ms, ps, ts, rfl, rfl, rfl, ?_⟩
        split at checked
        · cases checked
        · cases checked
          rfl

end BatchDraft

end TerraformPins
