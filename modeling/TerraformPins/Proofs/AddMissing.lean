import TerraformPins.Proofs.Provenance
import TerraformPins.Proofs.Wildcard

/-!
# Leave to add versions

An update with leave to add versions and one without it start from the same document and go
different ways. The difference stays in the slots that hold no version. The machine of a slot with a
version never asks for the leave: a version that is there is overwritten or kept, but not taken
away, so from the first step on both machines do the same. A slot without version stays as it is
without the leave, and with it the first upgrade that wants its pin gives it a version.

## Main definitions

* `Upgrade.Keeps` — an upgrade that keeps a name

## Main results

* `foldl_step_of_version`, `records_of_version` — a slot with a version does not depend on the leave
* `version_foldl_step_iff` — the slots that get a version
* `Document.update_addMissing` — the two updates of a document
-/

namespace TerraformPins

open Hcl

namespace Upgrade

/-- Whether a pin with this name is kept: the name is not empty, and one of the patterns for the
names to keep describes it. -/
def Keeps (u : Upgrade) (name : String) : Prop :=
  name ≠ "" ∧ ∃ pattern ∈ u.keepNames, Wildcard.Describes pattern.toList name.toList

variable {u : Upgrade} {p : Pin}

theorem keeps_iff {name : String} :
    u.Keeps name ↔ name ≠ "" ∧ Wildcard.acceptsAny u.keepNames name = true := by
  unfold Keeps
  rw [Wildcard.acceptsAny, List.any_eq_true]
  simp only [Wildcard.accepts_iff_describes]

theorem wants_iff :
    u.Wants p ↔
      u.addresses p = true ∧ ¬ u.Keeps p.name ∧
      ¬ (p.kind = .module ∧ isLocalSource p.key = true) := by
  rw [Wants, keeps_iff, and_comm (a := ¬ (p.kind = .module ∧ isLocalSource p.key = true))]

/-- The verdict on a pin with a version does not depend on the leave to add one. -/
theorem verdict_of_version (held : p.version ≠ none) (addMissing : Bool) :
    u.verdict addMissing p = u.verdict false p := by
  obtain ⟨version, same⟩ := Option.ne_none_iff_exists'.mp held
  simp only [verdict, same]

/-- With the leave a pin without version is admitted by every upgrade that wants it. -/
theorem admits_of_missing (missing : p.version = none) {addMissing : Bool} :
    u.Admits addMissing p ↔ u.Wants p ∧ addMissing = true := by
  rw [admits_iff, missing, Allows]

end Upgrade

open Upgrade

section Slots

variable {us : List Upgrade} {s : Slot}

/-! ### Slots with a version -/

/-- A step at a slot with a version, and what it records, does not depend on the leave. -/
theorem step_of_version (held : s.pin.version ≠ none) (addMissing : Bool) (u : Upgrade) :
    s.step addMissing u = s.step false u ∧ u.change? addMissing s.site = u.change? false s.site ∧
      u.refusal? addMissing s.site = u.refusal? false s.site := by
  have verdict : u.verdict addMissing s.site.pin = u.verdict false s.site.pin :=
    verdict_of_version held _
  have admits : u.Admits addMissing s.site.pin ↔ u.Admits false s.site.pin := by
    rw [Admits, Admits, verdict]
  refine ⟨?_, ?_, ?_⟩
  · exact if_congr admits rfl rfl
  · simp only [Upgrade.change?, admits]
  · simp only [Upgrade.refusal?, verdict]

/-- A step does not take a version away. -/
theorem version_step (held : s.pin.version ≠ none) (addMissing : Bool) (u : Upgrade) :
    (s.step addMissing u).pin.version ≠ none := by
  unfold Slot.step
  split
  · simp [Slot.pin_write]
  · exact held

theorem version_foldl (held : s.pin.version ≠ none) (addMissing : Bool) :
    (us.foldl (Slot.step addMissing) s).pin.version ≠ none := by
  induction us generalizing s with
  | nil => exact held
  | cons u us ih => exact ih (version_step held addMissing u)

/-- What happens at a slot with a version does not depend on the leave. -/
theorem foldl_step_of_version (held : s.pin.version ≠ none) (addMissing : Bool) :
    us.foldl (Slot.step addMissing) s = us.foldl (Slot.step false) s := by
  induction us generalizing s with
  | nil => rfl
  | cons u us ih =>
    rw [List.foldl_cons, List.foldl_cons, (step_of_version held addMissing u).1]
    -- A step takes no version away, so the next upgrade meets a slot with a version again.
    exact ih (version_step held false u)

/-- What is recorded at a slot with a version does not depend on the leave. -/
theorem records_of_version (us : List Upgrade) (held : s.pin.version ≠ none) (addMissing : Bool) :
    slotChanges addMissing us [s] = slotChanges false us [s] ∧
      slotRefusals addMissing us [s] = slotRefusals false us [s] := by
  induction us generalizing s with
  | nil => exact ⟨rfl, rfl⟩
  | cons u us ih =>
    obtain ⟨step, change, refusal⟩ := step_of_version held addMissing u
    obtain ⟨changes, refusals⟩ := ih (version_step held false u)
    simp only [slotChanges, slotRefusals] at changes refusals ⊢
    simp only [records_singleton_cons, step, change, refusal, changes, refusals, and_self]

/-! ### Slots without version -/

/-- Without the leave nothing happens at a slot without version, and no change is recorded. -/
theorem idle_of_missing (us : List Upgrade) (missing : s.pin.version = none) :
    us.foldl (Slot.step false) s = s ∧ slotChanges false us [s] = [] := by
  have refused (u : Upgrade) : ¬ u.Admits false s.pin := by
    rw [admits_of_missing missing]
    simp
  refine ⟨foldl_step_eq_self fun u _ => step_eq_self_of_refused (refused u), records_eq_nil ?_⟩
  intro t member u _
  obtain rfl := List.mem_singleton.mp member
  exact ⟨step_eq_self_of_refused (refused u), change?_of_refused (refused u)⟩

/-- With the leave a slot without version gets one exactly if an upgrade wants its pin. -/
theorem version_foldl_step_iff (missing : s.pin.version = none) :
    (us.foldl (Slot.step true) s).pin.version ≠ none ↔ ∃ u ∈ us, u.Wants s.pin := by
  constructor
  · intro added
    by_contra unwanted
    apply added
    -- An upgrade that does not want the pin leaves the slot as it was, so all of them meet the same
    -- pin.
    have stays : us.foldl (Slot.step true) s = s := by
      refine foldl_step_eq_self fun u member => step_eq_self_of_refused ?_
      rw [admits_of_missing missing]
      exact fun admits => unwanted ⟨u, member, admits.1⟩
    rw [stays, missing]
  · rintro ⟨u, member, wants⟩
    obtain ⟨version, ended⟩ :=
      foldl_step_of_admitted member ((admits_of_missing missing).mpr ⟨wants, rfl⟩)
    rw [ended, Slot.pin_write]
    exact Option.some_ne_none version

end Slots

namespace Document

variable {d : Document} {us : List Upgrade} {addMissing : Bool} {i : Nat} {p : Pin}

/-- The slot of a pin and the slot in its place after an update. -/
theorem exists_slot (us : List Upgrade) (found : d.pins[i]? = some p) :
    ∃ s, d.slots[i]? = some s ∧ s.pin = p ∧ ∀ addMissing,
      (d.update us addMissing).2.pins[i]? = some (us.foldl (Slot.step addMissing) s).pin := by
  rw [pins_eq, List.getElem?_map] at found
  obtain ⟨s, there, same⟩ := Option.map_eq_some_iff.mp found
  refine ⟨s, there, same, fun addMissing => ?_⟩
  rw [pins_eq, (update_eq addMissing us d).2, List.getElem?_map, List.getElem?_map, there]
  rfl

/-- The records of an update that come from one slot. -/
theorem recordsOf_update {s : Slot} (found : d.slots[i]? = some s) (addMissing : Bool) :
    recordsOf i (d.numberedChanges us addMissing) = slotChanges addMissing us [s] ∧
      recordsOf i (d.numberedRefusals us addMissing) = slotRefusals addMissing us [s] := by
  rw [recordsOf_numbered, recordsOf_numbered, found]
  exact ⟨rfl, rfl⟩

/-- An update with leave to add versions and one without it, from the same document.

* The records of an update are those of its pins, which are picked out by their numbers.
* A pin with a version ends in both updates as the same pin, and both record the same changes and
  the same refusals there.
* A pin without version stays as it is without the leave, and no change is recorded there. With the
  leave it gets a version if and only if some upgrade addresses it, does not keep its name, and it
  is no local module.
* No update takes a version away. -/
theorem update_addMissing (d : Document) (us : List Upgrade) :
    (∀ addMissing,
      (d.update us addMissing).1.changes = (d.numberedChanges us addMissing).map Prod.snd ∧
      (d.update us addMissing).1.refusals = (d.numberedRefusals us addMissing).map Prod.snd ∧
      (d.update us addMissing).2.pins.length = d.pins.length) ∧
    (∀ (i : Nat) (p : Pin), d.pins[i]? = some p → p.version ≠ none →
      (d.update us true).2.pins[i]? = (d.update us false).2.pins[i]? ∧
      recordsOf i (d.numberedChanges us true) = recordsOf i (d.numberedChanges us false) ∧
      recordsOf i (d.numberedRefusals us true) = recordsOf i (d.numberedRefusals us false)) ∧
    (∀ (i : Nat) (p : Pin), d.pins[i]? = some p → p.version = none →
      (d.update us false).2.pins[i]? = some p ∧ recordsOf i (d.numberedChanges us false) = [] ∧
      ∃ q, (d.update us true).2.pins[i]? = some q ∧
        (q.version ≠ none ↔ ∃ u ∈ us, u.addresses p = true ∧ ¬ u.Keeps p.name ∧
          ¬ (p.kind = .module ∧ isLocalSource p.key = true))) ∧
    (∀ addMissing (i : Nat) (p : Pin), d.pins[i]? = some p → p.version ≠ none →
      ∃ q, (d.update us addMissing).2.pins[i]? = some q ∧ q.version ≠ none) := by
  refine ⟨fun addMissing => ⟨?_, ?_, ?_⟩, fun i p found held => ?_, fun i p found missing => ?_,
    fun addMissing i p found held => ?_⟩
  · exact (d.map_numberedChanges us addMissing).symm
  · exact (d.map_numberedRefusals us addMissing).symm
  · rw [pins_eq, pins_eq, (update_eq addMissing us d).2, List.length_map, List.length_map,
      List.length_map]
  · obtain ⟨s, there, rfl, ended⟩ := exists_slot us found
    obtain ⟨changes, refusals⟩ := records_of_version us held true
    rw [ended, ended, foldl_step_of_version held true, (recordsOf_update there true).1,
      (recordsOf_update there true).2, (recordsOf_update there false).1,
      (recordsOf_update there false).2]
    exact ⟨rfl, changes, refusals⟩
  · obtain ⟨s, there, rfl, ended⟩ := exists_slot us found
    obtain ⟨stays, nothing⟩ := idle_of_missing us missing
    refine ⟨by rw [ended, stays], by rw [(recordsOf_update there false).1, nothing], _,
      ended true, ?_⟩
    rw [version_foldl_step_iff missing]
    simp only [wants_iff]
  · obtain ⟨s, -, rfl, ended⟩ := exists_slot us found
    exact ⟨_, ended addMissing, version_foldl held addMissing⟩

/-- Two modules with the same source, and only the first one has a version. -/
def halfPinned : String :=
  "module \"a\" \x7b\n  source = \"s\"\n  version = \"1\"\n\x7d\n" ++
    "module \"b\" \x7b\n  source = \"s\"\n\x7d\n"

/-- With leave the second module gets a version, and for the first one the leave does not matter. -/
theorem update_addMissing_halfPinned :
    ∃ d p q, read? halfPinned = some d ∧ (d.pins[0]? = some p ∧ p.version ≠ none) ∧
      (d.pins[1]? = some q ∧ q.version = none) ∧
      (d.update stringVersions true).2.pins[0]? = (d.update stringVersions false).2.pins[0]? ∧
      (d.update stringVersions false).2.pins[1]? = some q ∧
      ∃ r, (d.update stringVersions true).2.pins[1]? = some r ∧ r.version ≠ none := by
  have pins : (read? halfPinned).map Document.pins =
      some [⟨.module, "a", "s", none, some "1"⟩, ⟨.module, "b", "s", none, none⟩] := by
    decide +kernel
  obtain ⟨d, read, same⟩ := Option.map_eq_some_iff.mp pins
  have first : d.pins[0]? = some ⟨.module, "a", "s", none, some "1"⟩ := by rw [same]; rfl
  have second : d.pins[1]? = some ⟨.module, "b", "s", none, none⟩ := by rw [same]; rfl
  obtain ⟨-, pinned, unpinned, -⟩ := d.update_addMissing stringVersions
  obtain ⟨stays, -, r, ended, added⟩ := unpinned 1 _ second rfl
  refine ⟨d, _, _, read, ⟨first, by decide⟩, ⟨second, rfl⟩, (pinned 0 _ first (by decide)).1, stays,
    r, ended, added.mpr ⟨stringVersion, List.mem_cons_self, by decide, ?_, by decide⟩⟩
  rintro ⟨-, pattern, member, -⟩
  exact absurd member List.not_mem_nil

end Document

end TerraformPins
