import TerraformPins.Proofs.Hcl.Indent
import TerraformPins.Proofs.Slot.Single

/-!
# An entry that is added to an object

A version that the object of a provider lacks is added to it as its last entry. The entry that was
last keeps its key and its value. What stood behind its value stands behind the version from then
on, unless a comma or a line end was there. The comments in front of its key are written once more
in front of the new key, unless it ended at a line end.

## Main definitions

* `Entry.content` — what an entry says
* `repeatedComments` — the comments that are written twice

## Main results

* `commentsOf_setVersionEntry` — the comments of an object to which a version is added
* `Document.setVersion_addsEntry` — a version that is added to a provider
-/

namespace TerraformPins

open Hcl Document

namespace Hcl

/-- What an entry says: its key, the sign and the value without what is around it. -/
def Entry.content (e : Entry) : Expr × Sign × Node :=
  (e.key, e.sign, e.value.node)

/-- The comments in front of the last key of an object, if this entry does not end at a line end. -/
def repeatedComments (entries : List Entry) : List Chars :=
  match entries.getLast? with
  | none => []
  | some last =>
    if last.stop = .newline then [] else commentsIn (last.key.layout.before.getD [])

theorem content_settle (e : Entry) : e.settle.content = e.content := by
  unfold Entry.settle
  split <;> rfl

/-- The entries in front of an added one say what they said. -/
theorem map_content_settleLast (entries : List Entry) :
    (settleLast entries).map Entry.content = entries.map Entry.content := by
  rcases List.eq_nil_or_concat entries with rfl | ⟨init, last, rfl⟩
  · rfl
  · rw [List.concat_eq_append, settleLast_concat]
    simp [content_settle]

/-- An added entry is named by a word. -/
theorem node_addedEntry (last? : Option Entry) (value : Chars) :
    (addedEntry last? value).key.node = .name versionKey := by
  cases last? with
  | none => rfl
  | some last =>
    obtain ⟨_, _, _, stop⟩ := last
    cases stop <;> rfl

theorem entriesPieces_append (front back : List Entry) :
    entriesPieces (front ++ back) = entriesPieces front ++ entriesPieces back := by
  induction front with
  | nil => rfl
  | cons e front ih => simp [entriesPieces, ih]

/-- An indentation has no comments. -/
theorem commentsIn_indentation (layout : Layout) :
    commentsIn (layout.indentation?.getD []) = [] := by
  cases found : layout.indentation? with
  | none => rfl
  | some line =>
    obtain ⟨_, _, _, blank⟩ := indentation?_eq_some_iff.mp found
    exact commentsIn_of_blank blank

section Comments

variable (before gap lead behind : Option Chars) (name node : Node) (sign : Sign) (stop : Stop)
  (value : Chars)

/-- The comments in an entry, without those in front of it and behind it. -/
def entryComments : List Chars :=
  commentsOf name.pieces ++ commentsIn (gap.getD [' ']) ++ commentsIn (lead.getD [' ']) ++
    commentsOf node.pieces

theorem commentsOf_entry :
    commentsOf (Entry.mk (.mk ⟨before, gap⟩ name) sign (.mk ⟨lead, behind⟩ node) stop).pieces =
      commentsIn (before.getD []) ++ entryComments gap lead name node ++ commentsIn
      (behind.getD []) := by
  simp [Entry.pieces, entryKeyPieces, Expr.pieces, Layout.pieces, entryComments]

theorem commentsOf_versionEntry :
    commentsOf (Entry.mk (.mk ⟨before, none⟩ (.name versionKey)) sign
      (.mk ⟨none, behind⟩ (.text value)) stop).pieces =
        commentsIn (before.getD []) ++ commentsIn (behind.getD []) := by
  have inside : entryComments none none (.name versionKey) (.text value) = [] := rfl
  rw [commentsOf_entry, inside, List.append_nil]

end Comments

/-- The comments of the last entry of an object and of the one that is added behind it. -/
theorem commentsOf_entryAfter (last : Entry) (value : Chars) :
    ∃ above below, commentsOf last.pieces = above ++ below ∧
      commentsOf (last.settle.pieces ++ (addedEntry (some last) value).pieces) =
        above ++ repeatedComments [last] ++ below := by
  obtain ⟨⟨⟨before, gap⟩, name⟩, sign, ⟨⟨lead, behind⟩, node⟩, stop⟩ := last
  rw [commentsOf_append]
  cases stop with
  | newline =>
    -- Only the indentation is taken over from the last key.
    have added :=
      commentsOf_versionEntry (Layout.indentation? ⟨before, gap⟩) none sign .newline value
    rw [commentsIn_indentation] at added
    exact ⟨_, [], (List.append_nil _).symm, by rw [List.append_nil]; exact congrArg _ added⟩
  | comma =>
    -- All that stands in front of the last key is taken over, and nothing is moved.
    have added := commentsOf_versionEntry before none sign .comma value
    rw [Option.getD_none, commentsIn_nil, List.append_nil] at added
    exact ⟨_, [], (List.append_nil _).symm, by rw [List.append_nil]; exact congrArg _ added⟩
  | brace =>
    -- What stood behind the last value stands behind the version.
    have settled := commentsOf_entry before gap lead (some []) name node sign .comma
    have added := commentsOf_versionEntry before behind sign .brace value
    rw [Option.getD_some, commentsIn_nil, List.append_nil] at settled
    exact ⟨_, _, commentsOf_entry before gap lead behind name node sign .brace,
      (congrArg₂ _ settled added).trans (List.append_assoc _ _ _).symm⟩

/-- The comments of an object to which a version is added. -/
theorem commentsOf_setVersionEntry {entries : List Entry}
    (missing : valueAt? versionKey entries = none) (value : Chars) :
    ∃ above below, commentsOf (entriesPieces entries) = above ++ below ∧
      commentsOf (entriesPieces (setVersionEntry entries value)) =
        above ++ repeatedComments entries ++ below := by
  rw [setVersionEntry_eq_append missing]
  rcases List.eq_nil_or_concat entries with rfl | ⟨init, last, rfl⟩
  · exact ⟨[], [], rfl, rfl⟩
  · obtain ⟨above, below, had, has⟩ := commentsOf_entryAfter last value
    rw [List.concat_eq_append, settleLast_concat, List.getLast?_concat]
    refine ⟨commentsOf (entriesPieces init) ++ above, below, ?_, ?_⟩
    · simp [entriesPieces_append, entriesPieces, had]
    · have same : repeatedComments (init ++ [last]) = repeatedComments [last] := by
        simp [repeatedComments]
      rw [commentsOf_append] at has
      simp [entriesPieces_append, entriesPieces, has, same]

end Hcl

/-- A version that is set at a provider whose object lacks it.

* The number is that of the site of the provider.
* The object is written in the place of the old one, and the text around it stays.
* Its entries have the keys, signs and values that they had, in their order, and one version is
  behind them.
* The comments of the document stay, in their order, and `repeatedComments` are written once more.
  So they are the same exactly if there are none in front of the last key or the last entry ends at
  a line end. -/
theorem Document.setVersion_addsEntry {d : Document} {p : ProviderPlace} {entries : List Entry}
    {closing : Chars} (split : d.body.items = p.items (.object entries closing))
    (missing : valueAt? versionKey entries = none) (v : String) :
    d.sites[p.index]? = providerSite? p.key (.mk p.around (.object entries closing)) ∧
    ∃ kept added,
      (d.setVersion p.index v).body = ⟨d.body.frame, p.items (.object (kept ++ [added]) closing)⟩ ∧
      (∃ front back, d.text = String.ofList (front ++ (Node.object entries closing).chars ++ back) ∧
        (d.setVersion p.index v).text =
          String.ofList (front ++ (Node.object (kept ++ [added]) closing).chars ++ back)) ∧
      kept.map Entry.content = entries.map Entry.content ∧
      added.key.node = .name versionKey ∧ added.value.node = .text v.toList ∧
      (∃ above below : List Chars, d.comments = (above ++ below).map String.ofList ∧
        (d.setVersion p.index v).comments =
          (above ++ repeatedComments entries ++ below).map String.ofList) ∧
      ((d.setVersion p.index v).comments = d.comments ↔ repeatedComments entries = []) := by
  have written := setVersion_provider split v
  obtain ⟨front, back, now, later⟩ := setVersion_provider_pieces split v
  obtain ⟨above, below, had, has⟩ := commentsOf_setVersionEntry missing v.toList
  -- The comments in front of the object and behind it stay, so only those of the entries differ.
  have before : d.comments =
      ((commentsOf front ++ above) ++
        (below ++ commentsIn closing ++ commentsOf back)).map String.ofList := by
    rw [comments, now]
    simp [Node.pieces, had]
  have after : (d.setVersion p.index v).comments =
      ((commentsOf front ++ above) ++ repeatedComments entries ++
      (below ++ commentsIn closing ++ commentsOf back)).map String.ofList := by
    rw [comments, later]
    simp [Node.pieces, has]
  rw [setVersionEntry_eq_append missing] at written later
  refine ⟨sites_provider split, settleLast entries, addedEntry entries.getLast? v.toList,
    congrArg Document.body written, ⟨joined front, joined back, ?_, ?_⟩,
    map_content_settleLast entries, node_addedEntry _ _, ?_, ⟨_, _, before, after⟩, ?_⟩
  · rw [Document.text_eq, now]
    simp [Node.joined_pieces]
  · rw [Document.text_eq, later]
    simp [Node.joined_pieces]
  · rw [value_addedEntry]
    rfl
  · rw [before, after]
    simp

namespace Hcl.Structure

/-- Whether the structure is an attribute whose value is an object without a version, and a test
holds of the entries. -/
def lacksVersion (test : List Entry → Bool) : Structure → Bool
  | .attr _ _ _ (.mk _ (.object entries _)) => (valueAt? versionKey entries).isNone && test entries
  | _ => false

/-- The word of a block and its structures, an attribute having none. -/
def opened : Structure → Chars × List Structure
  | .block _ word _ _ _ items => (word, items)
  | .attr .. => ([], [])

theorem opened_eq (s : Structure) {word : Chars} {items : List Structure}
    (h : s.opened = (word, items)) (named : word ≠ []) :
    ∃ layout gap labels frame, s = .block layout word gap labels frame items := by
  cases s with
  | attr => exact absurd (congrArg Prod.fst h).symm named
  | block layout w gap labels frame inner =>
    obtain ⟨rfl, rfl⟩ := Prod.mk.inj h
    exact ⟨layout, gap, labels, frame, rfl⟩

theorem lacksVersion_eq {test : List Entry → Bool} {s : Structure}
    (h : s.lacksVersion test = true) : ∃ layout key gap around entries closing,
      s = .attr layout key gap (.mk around (.object entries closing)) ∧
        valueAt? versionKey entries = none ∧ test entries = true := by
  cases s with
  | block => cases h
  | attr layout key gap e =>
    obtain ⟨around, node⟩ := e
    cases node with
    | object entries closing =>
      obtain ⟨missing, passed⟩ := Bool.and_eq_true_iff.mp h
      exact ⟨layout, key, gap, around, entries, closing, rfl, Option.isNone_iff_eq_none.mp missing,
        passed⟩
    | _ => cases h

end Hcl.Structure

/-- A document in which one provider has an object without a version and nothing else stands, and a
test holds of the entries. -/
theorem Document.exists_of_lacksVersion (text : String) (test : List Entry → Bool)
    (evaluated : (read? text).map (fun d => d.body.items.map fun outer => (outer.opened.1,
      outer.opened.2.map fun inner => (inner.opened.1,
        inner.opened.2.map (Structure.lacksVersion test)))) =
      some [(terraformWord, [(requiredProvidersWord, [true])])]) :
    ∃ (d : Document) (p : ProviderPlace) (entries : List Entry) (closing : Chars),
      read? text = some d ∧ d.body.items = p.items (.object entries closing) ∧
      valueAt? versionKey entries = none ∧ test entries = true := by
  obtain ⟨d, read, all⟩ := Option.map_eq_some_iff.mp evaluated
  obtain ⟨outer, alone, opened⟩ := List.map_eq_singleton_iff.mp all
  obtain ⟨word, opened⟩ := Prod.mk.inj opened
  obtain ⟨inner, alone', opened⟩ := List.map_eq_singleton_iff.mp opened
  obtain ⟨word', opened⟩ := Prod.mk.inj opened
  obtain ⟨entry, alone'', lacks⟩ := List.map_eq_singleton_iff.mp opened
  obtain ⟨layout, gap, labels, frame, rfl⟩ :=
    outer.opened_eq (Prod.ext word alone') (by decide)
  obtain ⟨layout', gap', labels', frame', rfl⟩ :=
    inner.opened_eq (Prod.ext word' alone'') (by decide)
  obtain ⟨layout'', key, gap'', around, entries, closing, rfl, missing, passed⟩ :=
    Structure.lacksVersion_eq lacks
  let innerPlace : BlockPlace := ⟨[], layout', requiredProvidersWord, gap', labels', []⟩
  exact ⟨d, ⟨⟨[], layout, terraformWord, gap, labels, []⟩, frame, innerPlace, frame', [], layout'',
    key, gap'', around, [], rfl, rfl⟩, entries, closing, read, alone, missing, passed⟩

/-- A provider without a version, with a comment in front of its source. -/
def Document.sourceBehindComment : String :=
  "terraform \x7b\n  required_providers \x7b\n" ++
    "    aws = \x7b /* c */ source = \"s\" \x7d\n  \x7d\n\x7d\n"

/-- A provider without a version, with a comment behind the sign of its source. -/
def Document.sourceAfterComment : String :=
  "terraform \x7b\n  required_providers \x7b\n" ++
    "    aws = \x7b source = /* c */ \"s\" \x7d\n  \x7d\n\x7d\n"

theorem Document.setVersion_addsEntry_sourceBehindComment :
    (∃ (d : Document) (p : ProviderPlace) (entries : List Entry) (closing : Chars),
      (read? sourceBehindComment = some d ∧ d.body.items = p.items (.object entries closing) ∧
        valueAt? versionKey entries = none) ∧
      ((d.setVersion p.index "5.0").comments = d.comments ↔ repeatedComments entries = [])) ∧
    ∃ (d : Document) (p : ProviderPlace) (entries : List Entry) (closing : Chars),
      (read? sourceAfterComment = some d ∧ d.body.items = p.items (.object entries closing) ∧
        valueAt? versionKey entries = none) ∧
      d.comments = ["/* c */"] ∧ (d.setVersion p.index "5.0").comments = ["/* c */"] := by
  constructor
  · obtain ⟨d, p, entries, closing, read, split, missing, -⟩ :=
      exists_of_lacksVersion sourceBehindComment (fun _ => true) (by decide +kernel)
    obtain ⟨-, kept, added, -, -, -, -, -, -, same⟩ := setVersion_addsEntry split missing "5.0"
    exact ⟨d, p, entries, closing, ⟨read, split, missing⟩, same⟩
  · obtain ⟨d, p, entries, closing, read, split, missing, none⟩ :=
      exists_of_lacksVersion sourceAfterComment (fun entries => (repeatedComments entries).isEmpty)
        (by decide +kernel)
    have had : (read? sourceAfterComment).map comments = some ["/* c */"] := by decide +kernel
    rw [read, Option.map_some, Option.some.injEq] at had
    obtain ⟨-, kept, added, -, -, -, -, -, -, same⟩ := setVersion_addsEntry split missing "5.0"
    have alone := same.mpr (List.isEmpty_iff.mp none)
    exact ⟨d, p, entries, closing, ⟨read, split, missing⟩, had, alone.trans had⟩

/-- The comment is there twice when a version is added. -/
theorem Document.setVersion_repeatsComment :
    ∃ d, read? sourceBehindComment = some d ∧ d.comments = ["/* c */"] ∧
      (d.setVersion 1 "5.0").comments = ["/* c */", "/* c */"] ∧
      (d.setVersion 1 "5.0").text =
        "terraform \x7b\n  required_providers \x7b\n    aws = \x7b /* c */ source = \"s\", " ++
          "/* c */ version = \"5.0\" \x7d\n  \x7d\n\x7d\n" := by
  have evaluated : (read? sourceBehindComment).map (fun d =>
      (d.comments, (d.setVersion 1 "5.0").comments, (d.setVersion 1 "5.0").text)) =
      some (["/* c */"], ["/* c */", "/* c */"],
        "terraform \x7b\n  required_providers \x7b\n    aws = \x7b /* c */ source = \"s\", " ++
          "/* c */ version = \"5.0\" \x7d\n  \x7d\n\x7d\n") := by
    decide +kernel
  obtain ⟨d, read, all⟩ := Option.map_eq_some_iff.mp evaluated
  simp only [Prod.mk.injEq] at all
  exact ⟨d, read, all⟩

end TerraformPins
