import TerraformPins.Proofs.Hcl.Entries
import TerraformPins.Proofs.Slot.Attribute

/-!
# Trees that are read again

Reading a tree back writes down what the printer puts where nothing was written. It does so once:
a tree that was read back is read back as it is. Values say the same afterwards, a version is
written to them in the same way, and they print the same text. Only one thing can change the text.
The only entry of an object that was empty takes from the space in front of the brace what is on its
line, and its line end is printed as a line feed from then on.

## Main definitions

* `Node.slack?` — the space that the only entry of an object takes from the brace
* `Expr.Settled` — a value that was read or that holds a written version
* `Structure.Faithful` — a structure that prints the same after it was read back

## Main results

* `asRead_asRead` — reading back changes nothing the second time
* `asRead_setProviderVersion` — a version written before and after reading back
* `Node.chars_asRead` — what is read back prints the same text
-/

namespace TerraformPins.Hcl

open Document Scan Grammar

/-! ### Once -/

theorem Layout.asRead_asRead (layout : Layout) : layout.asRead.asRead = layout.asRead := rfl

theorem Entry.asRead_asRead (e : Entry) : e.asRead.asRead = e.asRead := rfl

@[simp] theorem Entry.keyText?_asRead (e : Entry) : e.asRead.keyText? = e.keyText? := rfl

/-- The object that is read back if its only entry has nothing behind it. -/
theorem Entry.asReadAlone_cases (e : Entry) (closing : Chars) :
    (∃ after stop rest, behindValue (closing ++ ['}']) = some ((after, stop), rest) ∧
      e.asReadAlone closing =
        .object [.mk e.asRead.key e.sign (e.value.written after) stop] rest.dropLast) ∨
    (behindValue (closing ++ ['}']) = none ∧
      e.asReadAlone closing = .object [e.asRead] closing) := by
  unfold asReadAlone
  cases found : behindValue (closing ++ ['}']) with
  | none => exact .inr ⟨rfl, rfl⟩
  | some x => exact .inl ⟨x.1.1, x.1.2, x.2, rfl, rfl⟩

/-- An object of one entry with something written behind its value. -/
theorem Node.asRead_singleton {e : Entry} (filled : e.value.layout.after ≠ none) (closing : Chars) :
    (Node.object [e] closing).asRead = .object [e.asRead] closing := by
  rw [Node.asRead, if_neg fun both => filled both.1]

/-- Several entries are read back one by one. -/
theorem Node.asRead_of_length {entries : List Entry} (several : entries.length ≠ 1)
    (closing : Chars) :
    (Node.object entries closing).asRead = .object (entries.map Entry.asRead) closing := by
  match entries with
  | [] => rfl
  | [_] => exact absurd rfl several
  | _ :: _ :: _ => rfl

/-- The entries of an object are read back one by one, or there is one without anything behind
it. -/
theorem Node.asRead_object_cases (entries : List Entry) (closing : Chars) :
    (Node.object entries closing).asRead = .object (entries.map Entry.asRead) closing ∨
      ∃ e, entries = [e] ∧ (Node.object entries closing).asRead = e.asReadAlone closing := by
  match entries with
  | [] => exact .inl rfl
  | [e] =>
    rw [Node.asRead]
    split
    · exact .inr ⟨e, rfl, rfl⟩
    · exact .inl rfl
  | _ :: _ :: _ => exact .inl rfl

/-- The entries of an object that was read back are read back as they are. -/
theorem Node.asRead_map (entries : List Entry) (closing : Chars) :
    (Node.object (entries.map Entry.asRead) closing).asRead =
      .object (entries.map Entry.asRead) closing := by
  refine Node.asRead_object (fun e member => ?_) closing
  obtain ⟨e', -, rfl⟩ := List.mem_map.mp member
  exact e'.asRead_asRead

/-- Reading back changes nothing the second time. -/
theorem Node.asRead_asRead (node : Node) : node.asRead.asRead = node.asRead := by
  cases node with
  | object entries closing =>
    rcases Node.asRead_object_cases entries closing with same | ⟨e, -, same⟩
    · rw [same, Node.asRead_map]
    · rw [same]
      rcases e.asReadAlone_cases closing with ⟨after, stop, rest, -, read⟩ | ⟨-, read⟩
      · rw [read]
        exact Node.asRead_singleton
          (by simp [Entry.value, Expr.written, Expr.layout, Layout.written]) _
      · rw [read]
        exact Node.asRead_map [e] closing
  | _ => rfl

/-- Expressions that were read back are read back as they are. -/
theorem Expr.asRead_asRead (e : Expr) : e.asRead.asRead = e.asRead := by
  unfold Expr.asRead
  rw [Expr.node, Node.asRead_asRead]
  rfl

mutual

theorem Structure.asRead_asRead : (s : Structure) → s.asRead.asRead = s.asRead
  | .attr layout key gap value => by
    simp only [Structure.asRead, Layout.asRead_asRead, Expr.asRead_asRead, Option.getD_some]
  | .block layout word gap labels frame items => by
    simp only [Structure.asRead, Layout.asRead_asRead, asReadItems_asReadItems items]

theorem asReadItems_asReadItems :
    (items : List Structure) → asReadItems (asReadItems items) = asReadItems items
  | [] => rfl
  | s :: rest => by simp only [asReadItems, s.asRead_asRead, asReadItems_asReadItems rest]

end

/-! ### What a value says -/

/-- A blank in front does not count. -/
theorem trim_cons {c : Char} (blank : isBlank c = true) (cs : Chars) :
    trim (c :: cs) = trim cs := by
  rw [trim, trim, trimWhile, trimWhile, List.dropWhile_cons, if_pos blank]

/-- The text of a value counts without the blanks at its ends, so it does not depend on whether they
were written. -/
theorem Expr.plainText_written (e : Expr) :
    (e.written (e.layout.after.getD [])).plainText = e.plainText := by
  obtain ⟨⟨before, after⟩, node⟩ := e
  cases node
  case text => rfl
  all_goals
    cases before with
    | some => rfl
    | none =>
      unfold plainText
      exact congrArg (trimWhile (· == '"')) (trim_cons (by decide) _)

/-- A value that is as it is read keeps its text. -/
theorem Expr.plainText_asRead {e : Expr} (written : e.node.asRead = e.node) :
    e.asRead.plainText = e.plainText := by
  have same : e.asRead = e.written (e.layout.after.getD []) := by rw [asRead, Expr.written, written]
  rw [same, plainText_written]

theorem Expr.quoted?_asRead {e : Expr} (written : e.node.asRead = e.node) :
    e.asRead.quoted? = e.quoted? := by
  unfold quoted?
  rw [show e.asRead.node = e.node from written]

/-- The value of a key in entries that were read back. -/
theorem valueAt?_map_asRead (key : Chars) (entries : List Entry) :
    valueAt? key (entries.map Entry.asRead) =
      (valueAt? key entries).map fun e => e.written (e.layout.after.getD []) := by
  induction entries with
  | nil => rfl
  | cons e rest ih =>
    rw [List.map_cons, valueAt?_cons, valueAt?_cons, Entry.keyText?_asRead, ih]
    split <;> rfl

/-- The text of a source does not depend on whether what is behind it was written. -/
theorem sourceText?_written (source : Option Expr) :
    sourceText? (source.map fun e => e.written (e.layout.after.getD [])) = sourceText? source := by
  cases source with
  | none => rfl
  | some e => simp [sourceText?, Expr.plainText_written]

/-! ### Versions in objects that were read back -/

section Entries

variable {key value : Chars}

/-- A value may be exchanged before or after the entries are read back. -/
theorem retextAt?_map_asRead (entries : List Entry) :
    retextAt? key value (entries.map Entry.asRead) =
      (retextAt? key value entries).map (List.map Entry.asRead) := by
  induction entries with
  | nil => rfl
  | cons e rest ih =>
    rw [List.map_cons, retextAt?, retextAt?, Entry.keyText?_asRead]
    split
    · rfl
    · rw [ih, Option.map_map, Option.map_map]
      rfl

/-- There are as many entries after a value was exchanged. -/
theorem length_retextAt? {entries changed : List Entry}
    (written : retextAt? key value entries = some changed) :
    changed.length = entries.length := by
  induction entries generalizing changed with
  | nil => cases written
  | cons e rest ih =>
    rw [retextAt?] at written
    split at written
    · obtain rfl := Option.some.inj written
      rfl
    · obtain ⟨rest', inner, rfl⟩ := Option.map_eq_some_iff.mp written
      rw [List.length_cons, List.length_cons, ih inner]

theorem retextAt?_singleton (e : Entry) :
    retextAt? key value [e] = if e.keyText? = some key then some [e.retext value] else none := rfl

/-- The end of an only entry is found in the same way whatever its value is. -/
theorem Node.asRead_retext (e : Entry) (closing : Chars) :
    ∃ e' closing', (Node.object [e] closing).asRead = .object [e'] closing' ∧
      e'.keyText? = e.keyText? ∧
      (Node.object [e.retext value] closing).asRead = .object [e'.retext value] closing' := by
  by_cases alone : e.value.layout.after = none ∧ e.stop = .brace
  · have alone' : (e.retext value).value.layout.after = none ∧
        (e.retext value).stop = .brace := alone
    rw [Node.asRead, if_pos alone, Node.asRead, if_pos alone', Entry.asReadAlone, Entry.asReadAlone]
    cases behindValue (closing ++ ['}']) with
    | none => exact ⟨_, _, rfl, rfl, rfl⟩
    | some x => exact ⟨_, _, rfl, rfl, rfl⟩
  · have filled : ¬ ((e.retext value).value.layout.after = none ∧
        (e.retext value).stop = .brace) := alone
    rw [Node.asRead, if_neg alone, Node.asRead, if_neg filled]
    exact ⟨_, _, rfl, rfl, rfl⟩

/-- Exchanging a version and reading back can be done in either order. -/
theorem Node.asRead_retextAt? {entries changed : List Entry} {closing : Chars}
    (written : retextAt? key value entries = some changed) :
    ∃ entries' changed' closing', (Node.object entries closing).asRead = .object entries' closing' ∧
      retextAt? key value entries' = some changed' ∧
      (Node.object changed closing).asRead = .object changed' closing' := by
  by_cases one : entries.length = 1
  · obtain ⟨e, rfl⟩ := List.length_eq_one_iff.mp one
    rw [retextAt?_singleton] at written
    split at written
    case isFalse => cases written
    case isTrue named =>
      obtain rfl := Option.some.inj written
      obtain ⟨e', closing', read, name, changed⟩ := @Node.asRead_retext value e closing
      exact ⟨_, _, _, read, by rw [retextAt?_singleton, if_pos (name.trans named)], changed⟩
  · have several : changed.length ≠ 1 := by rwa [length_retextAt? written]
    refine ⟨_, changed.map Entry.asRead, _, Node.asRead_of_length one closing, ?_,
      Node.asRead_of_length several closing⟩
    rw [retextAt?_map_asRead, written]
    rfl

end Entries

/-- A value that was read back, or that holds a version that was written. -/
def Expr.Settled (e : Expr) : Prop :=
  e.node.asRead = e.node ∨
    ∃ entries closing version value, e.node = .object entries closing ∧
      valueAt? versionKey entries = some version ∧ version.node = .text value

namespace Expr

/-- A value that was read back is settled. -/
theorem settled_asRead (e : Expr) : e.asRead.Settled :=
  .inl e.node.asRead_asRead

theorem settled_setProviderVersion (e : Expr) (value : Chars) :
    (e.setProviderVersion value).Settled := by
  obtain ⟨layout, node⟩ := e
  cases node with
  | object entries closing =>
    exact .inr ⟨_, closing, _, value, rfl, valueAt?_version_setVersionEntry entries value, rfl⟩
  | _ => exact .inl rfl

/-- Values with the same node in layouts that are read back the same are read back the same. -/
theorem asRead_congr {e e' : Expr}
    (layouts : e.layout.before.getD [' '] = e'.layout.before.getD [' '] ∧
    e.layout.after.getD [] = e'.layout.after.getD []) (nodes : e.node.asRead = e'.node.asRead) :
    e.asRead = e'.asRead := by
  rw [asRead, asRead, layouts.1, layouts.2, nodes]

/-- A version is written in the same way before and after reading back. -/
theorem asRead_setProviderVersion {e : Expr} (settled : e.Settled) (value : Chars) :
    (e.asRead.setProviderVersion value).asRead = (e.setProviderVersion value).asRead := by
  obtain ⟨layout, node⟩ := e
  rcases settled with written | ⟨entries, closing, version, old, rfl, found, -⟩
  · have same : (Expr.mk layout node).asRead =
        .mk (.written (layout.before.getD [' ']) (layout.after.getD [])) node :=
      congrArg (Expr.mk _) written
    rw [same]
    cases node <;> exact asRead_congr ⟨rfl, rfl⟩ rfl
  · obtain ⟨changed, retexted⟩ := Option.ne_none_iff_exists'.mp
      (mt (@retextAt?_eq_none_iff versionKey value entries).mp (by simp [found]))
    obtain ⟨entries', changed', closing', read, retexted', read'⟩ :=
      @Node.asRead_retextAt? versionKey value entries changed closing retexted
    have here : (Expr.mk layout (.object entries closing)).asRead =
        .mk (.written (layout.before.getD [' ']) (layout.after.getD []))
        (.object entries' closing') :=
      congrArg (Expr.mk _) read
    have first : setVersionEntry entries' value = changed' := by simp [setVersionEntry, retexted']
    have second : setVersionEntry entries value = changed := by simp [setVersionEntry, retexted]
    rw [here]
    refine asRead_congr ⟨rfl, rfl⟩ ?_
    show (Node.object (setVersionEntry entries' value) closing').asRead =
      (Node.object (setVersionEntry entries value) closing).asRead
    rw [first, second, ← read', Node.asRead_asRead, read']

end Expr

/-! ### The text -/

/-- The space in front of the brace of an object, of which its only entry takes a part when it is
read back. In an empty object this is the entry that is added. -/
def Node.slack? : Node → Option Chars
  | .object [] closing => some closing
  | .object [e] closing =>
    if e.value.layout.after = none ∧ e.stop = .brace then some closing else none
  | _ => none

/-- There is slack in objects of one entry at most. -/
theorem Node.length_of_slack? {entries : List Entry} {closing c : Chars}
    (slack : (Node.object entries closing).slack? = some c) : entries.length ≤ 1 := by
  match entries with
  | [] => exact Nat.zero_le 1
  | [_] => exact Nat.le_refl 1
  | _ :: _ :: _ => cases slack

theorem length_settleLast (entries : List Entry) :
    (settleLast entries).length = entries.length := by
  rcases List.eq_nil_or_concat entries with rfl | ⟨front, last, rfl⟩
  · rfl
  · simp [settleLast_concat]

/-- Objects with a version written have no more slack than before. -/
theorem Node.slack?_setVersionEntry {entries : List Entry} {closing c value : Chars}
    (slack : (Node.object (setVersionEntry entries value) closing).slack? = some c) :
    (Node.object entries closing).slack? = some c := by
  have short := Node.length_of_slack? slack
  cases written : retextAt? versionKey value entries with
  | none =>
    rw [setVersionEntry_eq_append (retextAt?_eq_none_iff.mp written)] at slack short
    rw [List.length_append, length_settleLast, List.length_singleton] at short
    obtain rfl := List.length_eq_zero_iff.mp (by omega : entries.length = 0)
    exact slack
  | some changed =>
    have same : setVersionEntry entries value = changed := by simp [setVersionEntry, written]
    rw [same] at slack short
    rw [length_retextAt? written] at short
    rcases Nat.le_one_iff_eq_zero_or_eq_one.mp short with none | one
    · obtain rfl := List.length_eq_zero_iff.mp none
      cases written
    · obtain ⟨e, rfl⟩ := List.length_eq_one_iff.mp one
      rw [retextAt?_singleton] at written
      split at written
      case isFalse => cases written
      case isTrue =>
        obtain rfl := Option.some.inj written
        exact slack

/-- The only entry of an object that was read back has something behind it, if only an empty
text. -/
theorem Node.slack?_asRead_singleton (e : Entry) (closing : Chars) :
    (Node.object [e] closing).asRead.slack? = none := by
  have filled (e' : Entry) (closing' : Chars) (after : e'.value.layout.after ≠ none) :
      (Node.object [e'] closing').slack? = none := if_neg fun both => after both.1
  rcases Node.asRead_object_cases [e] closing with same | ⟨e', -, same⟩
  · rw [same]
    exact filled e.asRead closing (Option.some_ne_none _)
  · rw [same]
    rcases e'.asReadAlone_cases closing with ⟨_, _, _, -, read⟩ | ⟨-, read⟩
    · rw [read]
      exact filled _ _ (Option.some_ne_none _)
    · rw [read]
      exact filled _ _ (Option.some_ne_none _)

/-- Of the objects that were read back only empty ones have slack. -/
theorem Node.slack?_asRead {node : Node} {c : Chars} (slack : node.asRead.slack? = some c) :
    node.slack? = some c := by
  cases node with
  | object entries closing =>
    by_cases one : entries.length = 1
    · obtain ⟨e, rfl⟩ := List.length_eq_one_iff.mp one
      rw [Node.slack?_asRead_singleton] at slack
      cases slack
    · rw [Node.asRead_of_length one] at slack
      have short := Node.length_of_slack? slack
      rw [List.length_map] at short
      obtain rfl := List.length_eq_zero_iff.mp (by omega : entries.length = 0)
      exact slack
  | _ => cases slack

/-- An entry prints the same after it was read back. -/
theorem Entry.chars_asRead (e : Entry) : e.asRead.chars = e.chars := by
  obtain ⟨⟨⟨before, after⟩, node⟩, sign, ⟨⟨before', after'⟩, node'⟩, stop⟩ := e
  rfl

theorem entriesChars_asRead (entries : List Entry) :
    entriesChars (entries.map Entry.asRead) = entriesChars entries := by
  induction entries with
  | nil => rfl
  | cons e rest ih => rw [List.map_cons, entriesChars, entriesChars, e.chars_asRead, ih]

/-- The only entry of an object takes a part of the space in front of the brace, and the text stays
if the line ends there are line feeds. -/
theorem Entry.chars_asReadAlone {e : Entry} {closing : Chars} (after : e.value.layout.after = none)
    (stop : e.stop = .brace) (feeds : '\r' ∉ closing) :
    (e.asReadAlone closing).chars = (Node.object [e] closing).chars := by
  rcases e.asReadAlone_cases closing with ⟨taken, last, rest, run, read⟩ | ⟨-, read⟩
  · -- `m` ended the entry. It is what is printed for that, unless it holds a carriage return.
    obtain ⟨m, whole, kinds⟩ := behindValue_split run
    have carriage : '\r' ∉ m := by
      intro member
      have inside : '\r' ∈ closing ++ ['}'] := by
        rw [whole]
        exact List.mem_append_right taken (List.mem_append_left rest member)
      rcases List.mem_append.mp inside with inside | inside
      · exact feeds inside
      · cases List.mem_singleton.mp inside
    have ended : m = last.chars := by
      rcases kinds with ⟨rfl, rfl⟩ | ⟨rfl, rfl | rfl⟩ | ⟨rfl, rfl, -⟩
      · rfl
      · rfl
      · exact absurd List.mem_cons_self carriage
      · rfl
    -- The brace is left over: neither a comma nor a line feed ends the text.
    rcases List.eq_nil_or_concat rest with rfl | ⟨init, c, rfl⟩
    · have final := congrArg List.getLast? whole
      rcases kinds with ⟨-, rfl⟩ | ⟨-, rfl | rfl⟩ | ⟨-, -, brace⟩
      · simp at final
      · simp at final
      · exact absurd List.mem_cons_self carriage
      · cases brace
    · rw [List.concat_eq_append] at whole read
      have split : closing ++ ['}'] = taken ++ (m ++ init) ++ [c] := by simpa using whole
      obtain ⟨rfl, -⟩ := List.append_inj' split rfl
      rw [read, ended, List.dropLast_concat]
      obtain ⟨⟨⟨b, a⟩, key⟩, sign, ⟨⟨b', a'⟩, node⟩, stop'⟩ := e
      obtain rfl : a' = none := after
      obtain rfl : stop' = .brace := stop
      simp [Node.chars, entriesChars, Entry.chars, entryKeyChars, Expr.chars, Layout.around,
        Entry.asRead, Entry.key, Entry.sign, Entry.value, Expr.written, Expr.layout, Expr.node,
        Layout.written, Stop.chars]
  · rw [read, Node.chars, Node.chars]
    exact congrArg (fun cs => '{' :: cs ++ closing ++ ['}']) (entriesChars_asRead [e])

/-- What is read back prints the same text. -/
theorem Node.chars_asRead {node : Node} (feeds : ∀ c, node.slack? = some c → '\r' ∉ c) :
    node.asRead.chars = node.chars := by
  have oneByOne (entries : List Entry) (closing : Chars) :
      (Node.object (entries.map Entry.asRead) closing).chars =
        (Node.object entries closing).chars := by
    rw [Node.chars, Node.chars, entriesChars_asRead]
  cases node with
  | object entries closing =>
    by_cases one : entries.length = 1
    · obtain ⟨e, rfl⟩ := List.length_eq_one_iff.mp one
      rw [Node.asRead]
      split
      case isTrue alone =>
        exact Entry.chars_asReadAlone alone.1 alone.2 (feeds closing (if_pos alone))
      case isFalse => exact oneByOne [e] closing
    · rw [Node.asRead_of_length one, oneByOne]
  | _ => rfl

end TerraformPins.Hcl
