import TerraformPins.Proofs.Slot

/-!
# The slots of providers

An entry of a `required_providers` block holds its version in an object or is a version itself. A
version that is missing in an object becomes its last entry. If the entry that was last ended at the
closing brace, it gets a comma and gives up the space and the comments behind its value, which stand
behind the new entry from then on. So the source of a provider can read differently afterwards: it
is not a quoted string, it was the last entry, and a comment stood behind it.

## Main definitions

* `settleLast` — the entries of an object in front of an added one
* `providerSlot?` — the slot of an entry
* `providerShelf` — entries of a `required_providers` block as values that hold slots

## Main results

* `setVersionEntry_eq_append` — what becomes of an object without a version
* `providerSite?_eq` — an entry has a site exactly where it has a slot
-/

namespace TerraformPins

open Hcl Document

namespace Hcl

variable {key other value : Chars} {entries changed : List Entry}

/-- The value of a key is that of the first entry with it. -/
theorem valueAt?_cons (key : Chars) (e : Entry) (rest : List Entry) :
    valueAt? key (e :: rest) = if e.keyText? = some key then some e.value
      else valueAt? key rest := by
  unfold valueAt?
  by_cases h : e.keyText? = some key <;> simp [h]

@[simp] theorem valueAt?_nil (key : Chars) : valueAt? key [] = none := rfl

/-- The value of a key among two rows of entries is in the first row if there is one. -/
theorem valueAt?_append (key : Chars) (entries more : List Entry) :
    valueAt? key (entries ++ more) = (valueAt? key entries).or (valueAt? key more) := by
  induction entries with
  | nil => simp
  | cons e rest ih =>
    rw [List.cons_append, valueAt?_cons, valueAt?_cons, ih]
    split <;> simp

/-- The key of an entry counts for its text, nothing else. -/
theorem keyText?_with (e : Entry) (sign : Sign) (value : Expr) (stop : Stop) :
    (Entry.mk e.key sign value stop).keyText? = e.keyText? := rfl

/-- A value is exchanged exactly if there is one. -/
theorem retextAt?_eq_none_iff : retextAt? key value entries = none ↔
    valueAt? key entries = none := by
  induction entries with
  | nil => simp [retextAt?]
  | cons e rest ih =>
    rw [retextAt?, valueAt?_cons]
    split <;> simp_all

/-- The version that is written is the one that is read, in the layout of the old one. -/
theorem valueAt?_retextAt? (h : retextAt? key value entries = some changed) :
    valueAt? key changed = (valueAt? key entries).map (·.retext value) := by
  induction entries generalizing changed with
  | nil => simp [retextAt?] at h
  | cons e rest ih =>
    rw [retextAt?] at h
    rw [valueAt?_cons]
    split at h
    case isTrue same =>
      obtain rfl := Option.some.inj h
      rw [valueAt?_cons, keyText?_with, if_pos same, if_pos same]
      rfl
    case isFalse differs =>
      obtain ⟨rest', inner, rfl⟩ := Option.map_eq_some_iff.mp h
      rw [valueAt?_cons, if_neg differs, if_neg differs, ih inner]

/-- The values of other keys stay. -/
theorem valueAt?_retextAt?_of_ne (ne : other ≠ key)
    (h : retextAt? key value entries = some changed) :
    valueAt? other changed = valueAt? other entries := by
  induction entries generalizing changed with
  | nil => simp [retextAt?] at h
  | cons e rest ih =>
    rw [retextAt?] at h
    split at h
    case isTrue same =>
      obtain rfl := Option.some.inj h
      have differs : e.keyText? ≠ some other := by
        rw [same]
        exact fun h => ne (Option.some.inj h).symm
      rw [valueAt?_cons, valueAt?_cons, keyText?_with, if_neg differs, if_neg differs]
    case isFalse =>
      obtain ⟨rest', inner, rfl⟩ := Option.map_eq_some_iff.mp h
      rw [valueAt?_cons, valueAt?_cons, ih inner]

/-- The second of two writes counts. -/
theorem retextAt?_retextAt? (second : Chars) (h : retextAt? key value entries = some changed) :
    retextAt? key second changed = retextAt? key second entries := by
  induction entries generalizing changed with
  | nil => simp [retextAt?] at h
  | cons e rest ih =>
    rw [retextAt?] at h
    split at h
    case isTrue same =>
      obtain rfl := Option.some.inj h
      rw [retextAt?, retextAt?, keyText?_with, if_pos same, if_pos same]
      rfl
    case isFalse differs =>
      obtain ⟨rest', inner, rfl⟩ := Option.map_eq_some_iff.mp h
      rw [retextAt?, retextAt?, if_neg differs, if_neg differs, ih inner]

/-- Writing a version that is there already changes nothing. -/
theorem retextAt?_eq_self {e : Expr} (found : valueAt? key entries = some e)
    (same : e.node = .text value) : retextAt? key value entries = some entries := by
  induction entries with
  | nil => simp at found
  | cons entry rest ih =>
    rw [valueAt?_cons] at found
    rw [retextAt?]
    split at found
    case isTrue here =>
      obtain rfl := Option.some.inj found
      rw [if_pos here]
      obtain ⟨k, sign, ⟨layout, node⟩, stop⟩ := entry
      simp only [Entry.value, Expr.node] at same
      subst same
      rfl
    case isFalse differs => rw [if_neg differs, ih found, Option.map_some]

/-- A value is exchanged behind entries without the key. -/
theorem retextAt?_append_of_none (missing : valueAt? key entries = none) (more : List Entry) :
    retextAt? key value (entries ++ more) = (retextAt? key value more).map (entries ++ ·) := by
  induction entries with
  | nil => simp
  | cons e rest ih =>
    rw [valueAt?_cons] at missing
    split at missing
    case isTrue => cases missing
    case isFalse differs =>
      rw [List.cons_append, retextAt?, if_neg differs, ih missing, Option.map_map]
      rfl

/-- The last entry of an object when another one follows. -/
def Entry.settle (e : Entry) : Entry :=
  if e.stop = .brace then
    .mk e.key e.sign (e.value.withLayout ⟨e.value.layout.before, some []⟩) .comma
  else e

/-- The entries of an object when another one follows. -/
def settleLast : List Entry → List Entry
  | [] => []
  | [e] => [e.settle]
  | e :: next :: rest => e :: settleLast (next :: rest)

/-- The entry that is added to an object behind the entry `last?`, if there is one. -/
def addedEntry (last? : Option Entry) (value : Chars) : Entry :=
  match last? with
  | none => .mk (.mk {} (.name versionKey)) .equals (.mk {} (.text value)) .brace
  | some last => (entryAfter last value).2

theorem entryAfter_fst (last : Entry) (value : Chars) :
    (entryAfter last value).1 = last.settle := by
  obtain ⟨_, _, _, stop⟩ := last
  cases stop <;> rfl

theorem settleLast_concat (entries : List Entry) (last : Entry) :
    settleLast (entries ++ [last]) = entries ++ [last.settle] := by
  induction entries with
  | nil => rfl
  | cons e rest ih =>
    cases rest with
    | nil => rfl
    | cons next rest => simpa [settleLast] using ih

/-- A version is added behind the entries, the last of which is settled before. -/
theorem addVersionEntry_eq (entries : List Entry) (value : Chars) :
    addVersionEntry entries value = settleLast entries ++ [addedEntry entries.getLast? value] := by
  rcases List.eq_nil_or_concat entries with rfl | ⟨init, last, rfl⟩
  · rfl
  · simp [addVersionEntry, addedEntry, settleLast_concat, ← entryAfter_fst last value]

@[simp] theorem keyText?_settle (e : Entry) : e.settle.keyText? = e.keyText? := by
  unfold Entry.settle
  split <;> rfl

@[simp] theorem keyText?_addedEntry (last? : Option Entry) (value : Chars) :
    (addedEntry last? value).keyText? = some versionKey := by
  cases last? with
  | none => rfl
  | some last =>
    obtain ⟨_, _, _, stop⟩ := last
    cases stop <;> rfl

/-- The layout of an added version depends on the entry in front of it only. -/
theorem value_addedEntry (last? : Option Entry) (value : Chars) :
    (addedEntry last? value).value = .mk (addedEntry last? []).value.layout (.text value) := by
  cases last? with
  | none => rfl
  | some last =>
    obtain ⟨_, _, _, stop⟩ := last
    cases stop <;> rfl

/-- Exchanging the version of an added entry is adding another one. -/
theorem retext_addedEntry (last? : Option Entry) (first second : Chars) :
    Entry.mk (addedEntry last? first).key (addedEntry last? first).sign
      ((addedEntry last? first).value.retext second) (addedEntry last? first).stop =
      addedEntry last? second := by
  cases last? with
  | none => rfl
  | some last =>
    obtain ⟨_, _, _, stop⟩ := last
    cases stop <;> rfl

/-- Settling the last entry adds no key and removes none. -/
theorem valueAt?_settleLast_eq_none_iff :
    valueAt? key (settleLast entries) = none ↔ valueAt? key entries = none := by
  rcases List.eq_nil_or_concat entries with rfl | ⟨init, last, rfl⟩
  · rfl
  · rw [List.concat_eq_append, settleLast_concat, valueAt?_append, valueAt?_append, valueAt?_cons,
      valueAt?_cons, keyText?_settle]
    split <;> simp

/-- An object without a version gets one behind its other entries. -/
theorem setVersionEntry_eq_append (missing : valueAt? versionKey entries = none) (value : Chars) :
    setVersionEntry entries value =
      settleLast entries ++ [addedEntry entries.getLast? value] := by
  unfold setVersionEntry
  rw [retextAt?_eq_none_iff.mpr missing, addVersionEntry_eq]

/-- The second of two versions counts, also if the first one was added. -/
theorem setVersionEntry_setVersionEntry (entries : List Entry) (first second : Chars) :
    setVersionEntry (setVersionEntry entries first) second = setVersionEntry entries second := by
  cases written : retextAt? versionKey first entries with
  | some changed =>
    have again := retextAt?_retextAt? second written
    simp only [setVersionEntry, written, again]
    cases rewritten : retextAt? versionKey second entries with
    | some => rfl
    | none =>
      rw [retextAt?_eq_none_iff] at rewritten
      rw [retextAt?_eq_none_iff.mpr rewritten] at written
      cases written
  | none =>
    have missing := retextAt?_eq_none_iff.mp written
    rw [setVersionEntry_eq_append missing, setVersionEntry_eq_append missing, setVersionEntry,
      retextAt?_append_of_none (valueAt?_settleLast_eq_none_iff.mpr missing), retextAt?,
      if_pos (keyText?_addedEntry _ _), retext_addedEntry]
    rfl

/-- The layout in which the version of an object stands or will stand. -/
def versionPlace (entries : List Entry) : Layout :=
  match valueAt? versionKey entries with
  | some e => e.layout
  | none => (addedEntry entries.getLast? []).value.layout

/-- The version that was set is there. -/
theorem valueAt?_version_setVersionEntry (entries : List Entry) (value : Chars) :
    valueAt? versionKey (setVersionEntry entries value) =
      some (.mk (versionPlace entries) (.text value)) := by
  unfold versionPlace
  cases found : valueAt? versionKey entries with
  | none =>
    have missing := valueAt?_settleLast_eq_none_iff.mpr found
    rw [setVersionEntry_eq_append found, valueAt?_append, missing, valueAt?_cons,
      if_pos (keyText?_addedEntry _ _), value_addedEntry]
    rfl
  | some e =>
    cases written : retextAt? versionKey value entries with
    | none => simp [retextAt?_eq_none_iff.mp written] at found
    | some changed =>
      rw [setVersionEntry, written]
      simp only [valueAt?_retextAt? written, found, Option.map_some]
      rfl

/-- Whether an object has no version and the source as its last entry, without a comma. -/
def sourceIsLast (entries : List Entry) : Bool :=
  (valueAt? versionKey entries).isNone && (valueAt? sourceKey entries.dropLast).isNone &&
    match entries.getLast? with
    | none => false
    | some last => last.keyText? = some sourceKey ∧ last.stop = .brace

/-- An entry that is added takes over what stands behind the source only if the source is last. -/
theorem valueAt?_source_settleLast (missing : valueAt? versionKey entries = none) :
    valueAt? sourceKey (settleLast entries) =
      if sourceIsLast entries then (valueAt? sourceKey entries).map Expr.bare
      else valueAt? sourceKey entries := by
  rcases List.eq_nil_or_concat entries with rfl | ⟨init, last, rfl⟩
  · rfl
  · rw [List.concat_eq_append] at missing ⊢
    rw [settleLast_concat, valueAt?_append, valueAt?_append, valueAt?_cons, valueAt?_cons,
      keyText?_settle]
    simp only [sourceIsLast, missing, List.dropLast_concat, List.getLast?_concat]
    cases valueAt? sourceKey init with
    | some => simp
    | none =>
      by_cases named : last.keyText? = some sourceKey
      · by_cases brace : last.stop = .brace <;>
          simp [named, brace, Entry.settle, Entry.value, Expr.bare]
      · simp [named]

theorem sourceKey_ne_versionKey : sourceKey ≠ versionKey := by
  decide

/-- The source of an object after a version has been written. -/
theorem valueAt?_source_setVersionEntry (entries : List Entry) (value : Chars) :
    valueAt? sourceKey (setVersionEntry entries value) =
      if sourceIsLast entries then (valueAt? sourceKey entries).map Expr.bare
      else valueAt? sourceKey entries := by
  cases found : valueAt? versionKey entries with
  | none =>
    have differs : ∀ last? : Option Entry, (addedEntry last? value).keyText? ≠ some sourceKey := by
      intro last?
      rw [keyText?_addedEntry]
      exact fun h => sourceKey_ne_versionKey (Option.some.inj h).symm
    rw [setVersionEntry_eq_append found, valueAt?_append, valueAt?_cons, if_neg (differs _),
      valueAt?_nil, Option.or_none, valueAt?_source_settleLast found]
  | some e =>
    have notLast : sourceIsLast entries = false := by simp [sourceIsLast, found]
    cases written : retextAt? versionKey value entries with
    | none => simp [retextAt?_eq_none_iff.mp written] at found
    | some changed =>
      rw [setVersionEntry, written, notLast]
      exact valueAt?_retextAt?_of_ne sourceKey_ne_versionKey written

/-- Behind a version that was set the source is not the last entry. -/
theorem sourceIsLast_setVersionEntry (entries : List Entry) (value : Chars) :
    sourceIsLast (setVersionEntry entries value) = false := by
  simp [sourceIsLast, valueAt?_version_setVersionEntry]

/-- Setting the version that is there changes nothing. -/
theorem setVersionEntry_eq_self {e : Expr} (found : valueAt? versionKey entries = some e)
    (same : e.node = .text value) : setVersionEntry entries value = entries := by
  rw [setVersionEntry, retextAt?_eq_self found same]

end Hcl

/-- The slot of an entry of a `required_providers` block. -/
def providerSlot? (key : Chars) (value : Expr) : Option Slot :=
  let name := String.ofList key
  match value.node with
  | .object entries _ =>
    some
      { kind := .provider
        name := name
        key := name
        source := valueAt? sourceKey entries
        exposed := sourceIsLast entries
        place := versionPlace entries
        held := (valueAt? versionKey entries).map Expr.node
        held_eq_none := by
          cases found : valueAt? versionKey entries <;> simp [sourceIsLast, found] }
  | .text version =>
    some
      { kind := .provider
        name := name
        key := name
        source := none
        exposed := false
        place := value.layout
        held := some (.text version)
        held_eq_none := nofun }
  | _ => none

theorem Hcl.Expr.mk_layout_node (e : Expr) : Expr.mk e.layout e.node = e := by
  cases e
  rfl

/-- An entry is a site exactly where it has a slot, and the slot says the same. -/
theorem providerSite?_eq (key : Chars) (value : Expr) :
    providerSite? key value = (providerSlot? key value).map Slot.site := by
  obtain ⟨layout, node⟩ := value
  cases node with
  | object entries closing =>
    simp only [providerSite?, providerSlot?, Expr.node, Option.map_some, Slot.site, Option.map_map]
    congr 2
    unfold versionPlace
    cases found : valueAt? versionKey entries with
    | none => rfl
    | some e => simp [Expr.mk_layout_node]
  | _ => rfl

/-- A version written to an entry is seen at its slot. -/
theorem providerSlot?_setProviderVersion {slot : Slot} {key : Chars} {value : Expr}
    (h : providerSlot? key value = some slot) (version : String) :
    providerSlot? key (value.setProviderVersion version.toList) = some (slot.write version) := by
  obtain ⟨layout, node⟩ := value
  cases node with
  | object entries closing =>
    obtain rfl := Option.some.inj h
    have stands := valueAt?_version_setVersionEntry entries version.toList
    have source := valueAt?_source_setVersionEntry entries version.toList
    have hidden := sourceIsLast_setVersionEntry entries version.toList
    have place : versionPlace (setVersionEntry entries version.toList) = versionPlace entries := by
      rw [versionPlace, stands]
      rfl
    simp [providerSlot?, Expr.setProviderVersion, Expr.node, Slot.write, Slot.settled, stands,
      source, hidden, place]
  | text current =>
    obtain rfl := Option.some.inj h
    rfl
  | _ => cases h

/-- Of two versions that are set at a provider the second one counts. -/
theorem setProviderVersion_setProviderVersion (value : Expr) (first second : Chars) :
    (value.setProviderVersion first).setProviderVersion second =
      value.setProviderVersion second := by
  obtain ⟨layout, node⟩ := value
  cases node with
  | object entries closing =>
    simp [Expr.setProviderVersion, Expr.node, Expr.layout, setVersionEntry_setVersionEntry]
  | _ => rfl

/-- Setting the version that a provider has changes nothing. -/
theorem setProviderVersion_eq_self {slot : Slot} {key : Chars} {value : Expr}
    (h : providerSlot? key value = some slot) {version : Chars}
    (held : slot.held = some (.text version)) : value.setProviderVersion version = value := by
  obtain ⟨layout, node⟩ := value
  cases node with
  | object entries closing =>
    obtain rfl := Option.some.inj h
    obtain ⟨e, found, same⟩ := Option.map_eq_some_iff.mp held
    simp [Expr.setProviderVersion, Expr.node, Expr.layout, setVersionEntry_eq_self found same]
  | text current =>
    obtain rfl := Option.some.inj h
    obtain ⟨⟩ := held
    rfl
  | _ => cases h

/-- The value of an entry after a write or none. -/
def writeProvider (key : Chars) (value : Expr) : Option String → Expr
  | none => value
  | some version =>
    if (providerSlot? key value).isSome then value.setProviderVersion version.toList else value

/-- Entries of a `required_providers` block hold a slot or none. -/
def providerShelf : Shelf Structure where
  slots
    | .attr _ key _ value => (providerSlot? key value).toList
    | .block .. => []
  write p
    | .attr layout key gap value => .attr layout key gap (writeProvider key value (p 0))
    | .block layout word gap labels frame items => .block layout word gap labels frame items
  walk := walkProvider
  slots_write p x := by
    cases x with
    | block => rfl
    | attr layout key gap value =>
      cases h : providerSlot? key value with
      | none => cases written : p 0 <;> simp [writeProvider, h]
      | some slot =>
        cases written : p 0 with
        | none => simp [writeProvider, h, written]
        | some version =>
          simp [writeProvider, h, written, providerSlot?_setProviderVersion h]
  write_write p q x := by
    cases x with
    | block => rfl
    | attr layout key gap value =>
      cases h : providerSlot? key value with
      | none => cases first : p 0 <;> cases second : q 0 <;> simp [writeProvider, h, first, second]
      | some slot =>
        cases first : p 0 <;> cases second : q 0 <;>
          simp [writeProvider, h, first, second, providerSlot?_setProviderVersion h,
            setProviderVersion_setProviderVersion]
  write_eq_self p x h := by
    cases x with
    | block => rfl
    | attr layout key gap value =>
      cases written : p 0 with
      | none => simp [writeProvider]
      | some version =>
        cases found : providerSlot? key value with
        | none => simp [writeProvider, found]
        | some slot =>
          have held := h 0 slot version (by simp [found]) written
          simp [writeProvider, found, setProviderVersion_eq_self found held]
  write_congr p q x h := by
    cases x with
    | block => rfl
    | attr layout key gap value =>
      cases found : providerSlot? key value with
      | none => cases p 0 <;> cases q 0 <;> simp [writeProvider, found]
      | some slot =>
        have same := h 0 (by simp [found])
        simp [same]
  walk_eq visit s x := by
    cases x with
    | block => rfl
    | attr layout key gap value =>
      cases found : providerSlot? key value with
      | none => simp [walkProvider, providerSite?_eq, found, writeProvider, Writes.ofList]
      | some slot =>
        simp only [walkProvider, providerSite?_eq, found, Option.map_some, Option.toList_some,
          choices_singleton, Writes.ofList_cons_zero]
        cases decided : visit s slot.site with
        | mk s choice =>
          cases choice <;> simp [writeProvider, found]

end TerraformPins
