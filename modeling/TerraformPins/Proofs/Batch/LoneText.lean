import TerraformPins.Proofs.Batch.Frame

/-!
# One text in the place of a list

A field that takes a list of texts also takes a single text, without the brackets of the list. The
two are read in different ways: an item of a list is taken as it is written, whatever it looks like,
and a text that stands alone is first read as a value. Where the value is a text they mean the same.
A truth value or a number that stands alone counts as the text of this value, and some values have
none: an integer of more than 64 bits, a text whose tag promises another kind of value, and whatever
carries a tag of the document's own. With these the whole batch is refused, although it would be
taken with brackets.

## Main definitions

* `Yaml.Node.value?` — the value that a scalar alone is read as
* `Batch.ofNode` — the batch that a node says

## Main results

* `Yaml.Node.valueText?_eq` — the text of a scalar that stands alone is that of its value
* `BatchFrame.ofNode_fill` — of an open field, a batch knows only the texts
* `BatchFrame.accepts_iff` — whether a batch is taken does not depend on these texts
* `BatchFrame.ofNode_lone` — a scalar alone and in brackets
-/

namespace TerraformPins

namespace Yaml

/-! ### Scalars that stand alone -/

/-- The text of a value, which is read from `text`; `none` for an integer of more than 64 bits.
Nothing has no text. -/
def Value.said? (text : List Char) : Value → Option (Option String)
  | .nothing => some none
  | .truth b => some (some (if b then "true" else "false"))
  | .integer n => (integerText? n).map some
  | .real digits => some (some (String.ofList digits))
  | .other => some (some (String.ofList text))

/-- The value that a scalar is read as. A tag of the document's own makes it no value at all, and so
does a standard tag that promises a kind of value which the text does not have. -/
def Node.value? (tag : Option (List Char)) (style : Style) (text : List Char) : Option Value :=
  match tag with
  | some tag =>
    if tag.head? = some '!' then none
    else if tag = standardTag "bool" then (Value.truth? text).map .truth
    else if tag = standardTag "int" then (Value.integer? text).map .integer
    else if tag = standardTag "float" then (Number.realText? text).map .real
    else if tag = standardTag "null" then if Value.isNull text then some .nothing else none
    else some .other
  | none => if style = .plain then some (Value.ofPlain text) else some .other

/-- The text of a scalar that stands alone is that of its value. -/
theorem Node.valueText?_eq (tag : Option (List Char)) (style : Style) (text : List Char) :
    valueText? tag style text = (value? tag style text).bind (Value.said? text) := by
  unfold valueText? value?
  cases tag with
  | some tag =>
    dsimp only
    split_ifs
    · rfl
    · cases Value.truth? text <;> rfl
    · cases Value.integer? text <;> rfl
    · cases Number.realText? text <;> rfl
    · rfl
    · rfl
    · rfl
  | none =>
    by_cases plain : style = .plain
    · simp only [plain, ne_eq, not_true_eq_false, if_false, if_true, Option.bind_some]
      cases Value.ofPlain text <;> rfl
    · simp only [plain, ne_eq, not_false_eq_true, if_true, if_false, Option.bind_some]
      rfl

end Yaml

open Yaml

/-! ### What a batch with an open field means -/

/-- The batch that a node says. -/
def Batch.ofNode (node : Node) : Except BatchError Batch :=
  match BatchDraft.ofNode? node with
  | some draft => draft.check
  | none => .error .malformed

/-- A text says the batch of its node. -/
theorem Batch.ofText_eq_ofNode {text : String} {node : Node}
    (read : Node.ofText? text = some node) : Batch.ofText text = ofNode node := by
  rw [ofText, BatchDraft.ofText?, read]
  rfl

namespace Upgrade

/-- The items of a field that takes a list of texts. -/
def items (u : Upgrade) (field : String) : List String :=
  if field = "from" then u.onlyFrom
  else if field = "ignore_versions" then u.keepVersions
  else u.keepNames

/-- The upgrade with other items in a field that takes a list of texts. -/
def withItems (u : Upgrade) (field : String) (texts : List String) : Upgrade :=
  if field = "from" then { u with onlyFrom := texts }
  else if field = "ignore_versions" then { u with keepVersions := texts }
  else { u with keepNames := texts }

theorem items_withItems (u : Upgrade) (field : String) (texts : List String) :
    (u.withItems field texts).items field = texts := by
  unfold withItems items
  split_ifs <;> rfl

end Upgrade

namespace DraftEntry

/-- The items of an open field are filled in the upgrade, and the others are not touched. -/
theorem upgrade_withItems (e : DraftEntry) (field : String) (texts : List String) (kind : PinKind)
    (key : Option String) (version : String) :
    (⟨kind, key, version, filledItems (e.withItems field texts).onlyFrom,
      filledItems (e.withItems field texts).keepVersions,
      filledItems (e.withItems field texts).keepNames⟩ : Upgrade) =
    (⟨kind, key, version, filledItems e.onlyFrom, filledItems e.keepVersions,
      filledItems e.keepNames⟩ : Upgrade).withItems field (filledItems texts) := by
  unfold withItems Upgrade.withItems
  split_ifs <;> rfl

/-- Whether an entry passes its check does not depend on a field with a list. -/
theorem check_withItems (part : BatchSection) (index : Nat) (e : DraftEntry) (field : String) :
    (∃ fault, ∀ texts, (e.withItems field texts).check part index = .error fault) ∨
      ∃ u : Upgrade, ∀ texts,
        (e.withItems field texts).check part index =
        .ok (u.withItems field (filledItems texts)) := by
  simp only [check_eq, key_withItems, version_withItems, upgrade_withItems]
  cases part.keyField? <;> cases filled? e.key <;> cases filled? e.version <;>
    first
    | exact .inl ⟨_, fun _ => rfl⟩
    | exact .inr ⟨_, fun _ => rfl⟩

end DraftEntry

namespace BatchDraft

/-- The row of a draft with an open place in a section has one open place. -/
theorem row_withEntries (d : BatchDraft) (part : BatchSection) (before after : List DraftEntry) :
    ∃ front back, ∀ e, (d.withEntries part (before ++ e :: after)).row =
      front ++ ⟨part, before.length, e⟩ :: back := by
  -- The numbers begin anew in each section: only the entries behind in the same section are counted
  -- on.
  let placed (other : BatchSection) (start : Nat) (es : List DraftEntry) : List PlacedEntry :=
    (es.zipIdx start).map fun x => ⟨other, x.2, x.1⟩
  let there := placed part (before.length + 1) after
  cases part with
  | modules =>
    refine ⟨placed .modules 0 before, there ++ placed .providers 0 d.providers ++
      placed .terraform 0 d.terraform, fun e => ?_⟩
    simp [row, withEntries, entries, List.zipIdx_append, placed, there]
  | providers =>
    refine ⟨placed .modules 0 d.modules ++ placed .providers 0 before, there ++
      placed .terraform 0 d.terraform, fun e => ?_⟩
    simp [row, withEntries, entries, List.zipIdx_append, placed, there]
  | terraform =>
    refine ⟨placed .modules 0 d.modules ++ placed .providers 0 d.providers ++
      placed .terraform 0 before, there, fun e => ?_⟩
    simp [row, withEntries, entries, List.zipIdx_append, placed, there]

/-- The check of a draft with an open field: a fault that does not depend on the field, or a batch
with one upgrade that it fills. -/
theorem check_withEntries (d : BatchDraft) (part : BatchSection) (before after : List DraftEntry)
    (e : DraftEntry) (field : String) :
    (∃ fault, ∀ texts,
      (d.withEntries part (before ++ e.withItems field texts :: after)).check = .error fault) ∨
    ∃ files addMissing us u vs, ∀ texts,
      (d.withEntries part (before ++ e.withItems field texts :: after)).check =
        .ok ⟨files, addMissing, us ++ Upgrade.withItems u field (filledItems texts) :: vs⟩ := by
  obtain ⟨front, back, row⟩ := d.row_withEntries part before after
  have files (es : List DraftEntry) : (d.withEntries part es).files = d.files := by
    cases part <;> rfl
  have addMissing (es : List DraftEntry) : (d.withEntries part es).addMissing = d.addMissing := by
    cases part <;> rfl
  simp only [check_eq_row, row, files, addMissing, List.mapM_append, List.mapM_cons]
  -- The first fault in the row decides, and it is never that of the open field.
  cases front.mapM PlacedEntry.check with
  | error fault => exact .inl ⟨fault, fun _ => rfl⟩
  | ok us =>
  rcases DraftEntry.check_withItems part before.length e field with ⟨fault, failed⟩ | ⟨u, passed⟩
  · exact .inl ⟨fault, fun texts => by rw [PlacedEntry.check, failed]; rfl⟩
  · cases back.mapM PlacedEntry.check with
    | error fault => exact .inl ⟨fault, fun texts => by rw [PlacedEntry.check, passed]; rfl⟩
    | ok vs =>
      refine .inr ⟨filled? d.files, d.addMissing, us, u, vs, fun texts => ?_⟩
      have some : (us ++ u.withItems field (filledItems texts) :: vs).isEmpty = false := by simp
      rw [PlacedEntry.check, passed]
      simp only [bind, Except.bind, pure, Except.pure, some]
      rfl

end BatchDraft

namespace Yaml.Node

/-- A scalar alone has the text of its value, unless there is no value or its text is too long. -/
theorem texts?_eq_none_iff {tag : Option (List Char)} {style : Style} {text : List Char} :
    (Node.scalar tag style text).texts? = none ↔
      ∀ value, value? tag style text = some value →
        ∃ n, value = .integer n ∧ Number.fits64 n = false := by
  rw [texts?, Option.map_eq_none_iff, valueText?_eq]
  cases value? tag style text with
  | none => simp
  | some value => cases value <;> simp [Value.said?, Value.integerText?]

/-- In brackets a scalar has the text that is written. -/
theorem texts?_bracketed (tag : Option (List Char)) (style : Style) (text : List Char) :
    (Node.list none [.scalar tag style text]).texts? = some [String.ofList text] :=
  rfl

end Yaml.Node

namespace BatchFrame

variable {f : BatchFrame} {field : String}

/-- Of an open field that takes a list of texts, a batch knows only the texts. They fill a field of
one of its upgrades, and whether it is refused for something else does not depend on them. -/
theorem ofNode_fill (f : BatchFrame) (named : f.entry.key.text? = some field)
    (isList : field ∈ listFields) :
    (∀ value : Node, value.texts? = none → Batch.ofNode (f.fill value) = .error .malformed) ∧
      ((∃ fault, ∀ value texts, Node.texts? value = some texts →
          Batch.ofNode (f.fill value) = .error fault) ∨
        ∃ files addMissing us u vs, ∀ value texts, Node.texts? value = some texts →
          Batch.ofNode (f.fill value) =
            .ok ⟨files, addMissing,
              us ++ Upgrade.withItems u field (filledItems texts) :: vs⟩) := by
  unfold Batch.ofNode
  rcases BatchDraft.ofNode?_fill f named isList with refused | ⟨d, part, before, e, after, read⟩
  · exact ⟨fun value _ => by rw [refused], .inl ⟨.malformed, fun value _ _ => by rw [refused]⟩⟩
  · refine ⟨fun value none => by rw [read, none]; rfl, ?_⟩
    rcases d.check_withEntries part before after e field with
      ⟨fault, failed⟩ | ⟨files, addMissing, us, u, vs, passed⟩
    · refine .inl ⟨fault, fun value texts listed => ?_⟩
      rw [read, listed]
      exact failed texts
    · refine .inr ⟨files, addMissing, us, u, vs, fun value texts listed => ?_⟩
      rw [read, listed]
      exact passed texts

/-- Values with the same texts say the same batch. -/
theorem ofNode_congr {v w : Node} (named : f.entry.key.text? = some field)
    (isList : field ∈ listFields) (same : v.texts? = w.texts?) :
    Batch.ofNode (f.fill v) = Batch.ofNode (f.fill w) := by
  obtain ⟨refused, filled⟩ := ofNode_fill f named isList
  cases listed : w.texts? with
  | none => rw [refused w listed, refused v (same.trans listed)]
  | some texts =>
    rcases filled with ⟨fault, failed⟩ | ⟨files, addMissing, us, u, vs, taken⟩
    · rw [failed w texts listed, failed v texts (same.trans listed)]
    · rw [taken w texts listed, taken v texts (same.trans listed)]

/-- A value is taken exactly if it has texts and the rest of the batch is in order. -/
theorem accepts_iff {v w : Node} {texts : List String} (named : f.entry.key.text? = some field)
    (isList : field ∈ listFields) (listed : w.texts? = some texts) :
    (∃ b, Batch.ofNode (f.fill v) = .ok b) ↔
      (∃ b, Batch.ofNode (f.fill w) = .ok b) ∧ v.texts? ≠ none := by
  obtain ⟨refused, filled⟩ := ofNode_fill f named isList
  cases found : v.texts? with
  | none => simp [refused v found]
  | some others =>
    rcases filled with ⟨fault, failed⟩ | ⟨files, addMissing, us, u, vs, taken⟩
    · simp [failed v others found, failed w texts listed]
    · simp [taken v others found, taken w texts listed]

/-- A scalar in a field that takes a list of texts, alone and in brackets.

* Alone it is taken if and only if it is taken in brackets and has a value, which is not an integer
  of more than 64 bits.
* Alone it counts as the text of this value in quotes. So both ways mean the same wherever the value
  is a text, and also where the text of the value is the one that is written.
* In brackets it counts as it is written: the batch has an upgrade with just this text in the field,
  without the blanks at its ends. -/
theorem ofNode_lone (f : BatchFrame) (named : f.entry.key.text? = some field)
    (isList : field ∈ listFields) (tag : Option (List Char)) (style : Style) (text : List Char) :
    ((∃ b, Batch.ofNode (f.fill (.scalar tag style text)) = .ok b) ↔
      (∃ b, Batch.ofNode (f.fill (.list none [.scalar tag style text])) = .ok b) ∧
        ∃ value, Node.value? tag style text = some value ∧
          ∀ n, value = .integer n → Number.fits64 n = true) ∧
    (∀ value said, Node.value? tag style text = some value → value.said? text = some (some said) →
      Batch.ofNode (f.fill (.scalar tag style text)) = Batch.ofNode
      (f.fill (.list none [.quoted said])) ∧
      (value = .other ∨ said = String.ofList text → Batch.ofNode (f.fill (.scalar tag style text)) =
        Batch.ofNode (f.fill (.list none [.scalar tag style text])))) ∧
    ∀ b, Batch.ofNode (f.fill (.list none [.scalar tag style text])) = .ok b →
      ∃ us u vs, b.upgrades = us ++ u :: vs ∧
        Upgrade.items u field = filledItems [String.ofList text] := by
  have bracketed := Node.texts?_bracketed tag style text
  refine ⟨?_, ?_, ?_⟩
  -- In brackets there are always texts, so the difference is whether the scalar alone has some.
  · rw [accepts_iff named isList bracketed, Ne, Node.texts?_eq_none_iff]
    push Not
    simp only [ne_eq, Bool.not_eq_false]
  · intro value said valued shown
    have alone : (Node.scalar tag style text).texts? = some [said] := by
      rw [Node.texts?, Node.valueText?_eq, valued, Option.bind_some, shown]
      rfl
    have quoted : (Node.list none [.quoted said]).texts? = some [said] := by
      rw [Node.quoted, Node.texts?_bracketed, String.ofList_toList]
    refine ⟨ofNode_congr named isList (alone.trans quoted.symm), fun written => ?_⟩
    obtain rfl : said = String.ofList text := by
      rcases written with rfl | same
      · simpa [Value.said?] using shown.symm
      · exact same
    exact ofNode_congr named isList (alone.trans bracketed.symm)
  · intro b taken
    rcases (ofNode_fill f named isList).2 with ⟨fault, failed⟩ |
      ⟨files, addMissing, us, u, vs, filled⟩
    · rw [failed _ _ bracketed] at taken
      cases taken
    · rw [filled _ _ bracketed] at taken
      obtain rfl := Except.ok.inj taken
      exact ⟨us, _, vs, rfl, Upgrade.items_withItems _ _ _⟩

/-- A batch with one module, whose old versions are left open. -/
def openFrom : BatchFrame where
  batch := ⟨none, [], .scalar none .plain "modules".toList, []⟩
  part := .among none [] []
  entry := ⟨none, [(.scalar none .plain "source".toList, .quoted "s"),
    (.scalar none .plain "version".toList, .quoted "1")], .scalar none .plain "from".toList, []⟩

/-- A decimal number alone loses the zero at its end. -/
theorem ofNode_lone_decimal :
    (openFrom.entry.key.text? = some "from" ∧ "from" ∈ listFields) ∧
      Batch.ofNode (openFrom.fill (.scalar none .plain "3.10".toList)) =
        Batch.ofNode (openFrom.fill (.list none [.quoted "3.1"])) :=
  ⟨⟨rfl, by decide⟩, ((ofNode_lone openFrom rfl (by decide) none .plain "3.10".toList).2.1
    (.real "3.1".toList) "3.1" (by decide +kernel) (by decide +kernel)).1⟩

end BatchFrame

/-- An integer of more than 64 bits is taken in brackets and refused alone, and a truth value is
taken as it is written in brackets and spelled in small letters alone. -/
theorem Batch.ofText_alone_ne_bracketed :
    Batch.ofText "modules:\n  - source: s\n    version: 1\n    from: [18446744073709551616]\n" =
        .ok ⟨none, false, [⟨.module, some "s", "1", ["18446744073709551616"], [], []⟩]⟩ ∧
      Batch.ofText "modules:\n  - source: s\n    version: 1\n    from: 18446744073709551616\n" =
        .error .malformed ∧
      Batch.ofText "modules:\n  - source: s\n    version: 1\n    from: [True]\n" =
        .ok ⟨none, false, [⟨.module, some "s", "1", ["True"], [], []⟩]⟩ ∧
      Batch.ofText "modules:\n  - source: s\n    version: 1\n    from: True\n" =
        .ok ⟨none, false, [⟨.module, some "s", "1", ["true"], [], []⟩]⟩ := by
  decide +kernel

end TerraformPins
