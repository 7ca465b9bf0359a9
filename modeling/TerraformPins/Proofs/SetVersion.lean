import TerraformPins.Proofs.Slot.Text

/-!
# Setting one version

The slots of a document are independent of each other: a version that is set is what is read
afterwards, at this slot and at no other, the last of two versions counts, versions at two slots can
be set in either order, and setting the quoted string that is there already changes nothing. A
version that is there is replaced in the text and nothing else is.

One thing besides the version can read differently afterwards. A version that is added to the object
of a provider takes over what stands behind its last entry. If that is the source, and not a quoted
string, the comments behind it are part of its text, and so they get lost.

## Main results

* `Document.setVersion_laws` — the laws
-/

namespace TerraformPins

open Hcl

namespace Document

/-- The visit that writes at one slot and counts. -/
theorem choices_single (index : Nat) (version : String) (start : Nat) (slots : List Slot) :
    (choices (fun i _ => (i + 1, Writes.single index version i)) start slots).2 =
      (List.range' start slots.length).map (Writes.single index version) := by
  induction slots generalizing start with
  | nil => rfl
  | cons slot slots ih => simp [choices, ih, List.range'_succ]

/-- A version that is set is written at one slot. -/
theorem setVersion_eq (d : Document) (index : Nat) (version : String) :
    d.setVersion index version = d.write (.single index version) := by
  have walked := d.walk_eq (fun i _ => (i + 1, Writes.single index version i)) 0
  have choices := choices_single index version 0 d.slots
  rw [choices] at walked
  calc d.setVersion index version
    _ = d.write (.ofList ((List.range' 0 d.slots.length).map (Writes.single index version))) :=
      congrArg Prod.snd walked
    _ = d.write (.single index version) := by
      refine write_congr fun i bound => ?_
      simp [Writes.ofList, bound]

theorem slots_setVersion (d : Document) (index : Nat) (version : String) :
    (d.setVersion index version).slots = d.slots.modify index (·.write version) := by
  rw [setVersion_eq, slots_write]
  apply List.ext_getElem?
  intro i
  rw [List.getElem?_mapIdx, List.getElem?_modify, Option.map_eq_map]
  by_cases here : index = i
  · subst here
    simp [Writes.single]
  · have elsewhere : i ≠ index := fun same => here same.symm
    simp [Writes.single, here, elsewhere]

theorem setVersion_eq_self {d : Document} {index : Nat} {version : String} {s : Slot}
    (found : d.slots[index]? = some s) (held : s.held = some (.text version.toList)) :
    d.setVersion index version = d := by
  rw [setVersion_eq]
  refine write_eq_self fun i t v foundToo written => ?_
  simp only [Writes.single] at written
  split at written
  case isTrue same =>
    obtain rfl := Option.some.inj written
    subst same
    rw [found] at foundToo
    obtain rfl := Option.some.inj foundToo
    exact held
  case isFalse => cases written

theorem setVersion_setVersion (d : Document) (index : Nat) (first second : String) :
    (d.setVersion index first).setVersion index second = d.setVersion index second := by
  rw [setVersion_eq, setVersion_eq, setVersion_eq, write_write]
  congr 1
  funext i
  by_cases here : i = index <;> simp [Writes.single, here]

theorem setVersion_comm (d : Document) {i j : Nat} (ne : i ≠ j) (v w : String) :
    (d.setVersion i v).setVersion j w = (d.setVersion j w).setVersion i v := by
  rw [setVersion_eq, setVersion_eq, setVersion_eq, setVersion_eq, write_write, write_write]
  congr 1
  funext k
  by_cases first : k = i
  · have second : k ≠ j := fun same => ne (first.symm.trans same)
    simp [Writes.single, first, ne]
  · simp [Writes.single, first]

/-- Two changes of one member agree exactly if they do so on this member. -/
theorem map_modify_eq_iff {α β : Type} {xs : List α} {i : Nat} {x : α} {f : α → α} {g : α → β}
    {h : β → β} (found : xs[i]? = some x) :
    (xs.modify i f).map g = (xs.map g).modify i h ↔ g (f x) = h (g x) := by
  constructor
  · intro same
    have here := congrArg (fun ys => ys[i]?) same
    simpa [List.getElem?_modify, found] using here
  · intro same
    apply List.ext_getElem?
    intro k
    by_cases here : i = k
    · subst here
      simp [found, same]
    · simp [here]

/-- Setting a version at a slot.

* What is read afterwards is the written version at this slot, and what was read before at all the
  others.
* Kind, name and key of the pin stay, and so does its source, unless the source is the last entry of
  an object without version, without a comma, and what stands behind it is part of its text.
* Nothing is changed exactly if the slot holds the same quoted string already.
* The last of two versions counts.
* Versions at two slots can be set in either order.
* If the slot holds a version, this version is replaced in the text by the quoted string, and every
  other character stays. -/
theorem setVersion_laws (d : Document) (i j : Nat) (v w : String) :
    ((d.setVersion i v).pins = (d.slots.modify i (·.write v)).map Slot.pin ∧
      d.pins = d.slots.map Slot.pin) ∧
    (∀ s, d.slots[i]? = some s →
      (s.write v).pin =
        { s.pin with providerSource := sourceText? s.settled, version := some v } ∧
      ((d.setVersion i v).pins = d.pins.modify i ({ · with version := some v }) ↔
        ¬ (s.exposed = true ∧ ∃ e, s.source = some e ∧ e.bare.plainText ≠ e.plainText)) ∧
      (s.site.changes v = false ↔ s.held = some (.text v.toList)) ∧
      (s.site.changes v = false → d.setVersion i v = d)) ∧
    (d.setVersion i v).setVersion i w = d.setVersion i w ∧
    (i ≠ j → (d.setVersion i v).setVersion j w = (d.setVersion j w).setVersion i v) ∧
    (∀ s node, d.slots[i]? = some s → s.held = some node →
      ∃ before after, d.text = String.ofList (before ++ node.chars ++ after) ∧
        ∀ u, (d.setVersion i u).text = String.ofList (before ++ quotedVersion u ++ after)) := by
  have read : (d.setVersion i v).pins = (d.slots.modify i (·.write v)).map Slot.pin := by
    rw [pins_eq, slots_setVersion]
  refine ⟨⟨read, d.pins_eq⟩, fun s found => ?_, d.setVersion_setVersion i v w,
    fun ne => d.setVersion_comm ne v w, fun s node found held => ?_⟩
  · refine ⟨s.pin_write v, ?_, s.changes_eq_false_iff v, fun stays => ?_⟩
    · rw [← Slot.not_steady_iff, Decidable.not_not, ← Slot.pin_write_eq_iff s v, read, pins_eq]
      exact map_modify_eq_iff found
    · exact setVersion_eq_self found ((s.changes_eq_false_iff v).mp stays)
  · obtain ⟨before, after, now, later⟩ := Document.replaces d i s node found held
    refine ⟨before, after, congrArg String.ofList now, fun u => ?_⟩
    rw [text, setVersion_eq]
    exact congrArg String.ofList (later u)

/-- A version that is set behind `var.x /* c */` changes what the source reads. -/
theorem setVersion_commentedSource :
    ∃ d, read? commentedSource = some d ∧
      (d.setVersion 1 "5.0").pins ≠ d.pins.modify 1 ({ · with version := some "5.0" }) := by
  have sources : (read? commentedSource).map (fun d => ((d.setVersion 1 "5.0").pins,
      d.pins.modify 1 ({ · with version := some "5.0" }))) =
      some ([⟨.terraform, "terraform", "", none, none⟩,
          ⟨.provider, "aws", "aws", some "var.x", some "5.0"⟩],
        [⟨.terraform, "terraform", "", none, none⟩,
          ⟨.provider, "aws", "aws", some "var.x /* c */", some "5.0"⟩]) := by
    decide +kernel
  obtain ⟨d, read, both⟩ := Option.map_eq_some_iff.mp sources
  refine ⟨d, read, fun same => ?_⟩
  simp only [Prod.mk.injEq] at both
  rw [both.1, both.2] at same
  simp at same

end Document

end TerraformPins
