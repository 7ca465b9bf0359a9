import TerraformPins.Proofs.Batch

/-!
# Batches with one upgrade

A batch that lists one upgrade and nothing else is read as this upgrade. All of its texts are in
quotes, its fields stand in any order, and what is empty may be left out. Quotes keep a text from
being read as a number or a truth value, so a text without blanks at its ends comes through as it
is.

## Main definitions

* `Yaml.Node.HasFields` — a mapping with the given fields
* `Yaml.FieldQuotes` — a field that holds texts in quotes
* `Upgrade.AloneIn` — a batch with one upgrade

## Main results

* `DraftEntry.check_of_isTrimmed` — an entry is taken as it is written
* `Batch.ofText_of_aloneIn` — a batch with one upgrade is read as this upgrade
-/

namespace TerraformPins

/-! ### Texts without blanks at their ends -/

/-- A text that is not empty and has no blanks at its ends. -/
structure IsTrimmed (text : String) : Prop where
  filled : text ≠ ""
  front : ∀ c, text.toList.head? = some c → isBlank c = false
  back : ∀ c, text.toList.getLast? = some c → isBlank c = false

instance (text : String) : Decidable (IsTrimmed text) :=
  decidable_of_iff
    (text ≠ "" ∧ text.toList.head?.all (!isBlank ·) ∧ text.toList.getLast?.all (!isBlank ·)) <| by
    simp only [Option.all_eq_true, Bool.not_eq_true']
    exact ⟨fun ⟨filled, front, back⟩ => ⟨filled, front, back⟩, fun h => ⟨h.filled, h.front, h.back⟩⟩

/-- Nothing is dropped if the first member is to stay. -/
theorem dropWhile_eq_self_of_head? {α : Type} {p : α → Bool} {xs : List α}
    (front : ∀ x, xs.head? = some x → p x = false) : xs.dropWhile p = xs := by
  cases xs with
  | nil => rfl
  | cons x xs => rw [List.dropWhile_cons_of_neg (by simp [front x rfl])]

/-- A text without blanks at its ends is left as it is. -/
theorem IsTrimmed.trimmed_eq {text : String} (h : IsTrimmed text) : trimmed text = text := by
  have back : ∀ c, text.toList.reverse.head? = some c → isBlank c = false := by
    simpa using h.back
  rw [trimmed, trim, trimWhile, dropWhile_eq_self_of_head? h.front, dropEndWhile,
    dropWhile_eq_self_of_head? back, List.reverse_reverse, String.ofList_toList]

theorem filled?_of_isTrimmed {text : String} (h : IsTrimmed text) :
    filled? (some text) = some text := by
  simp [filled?, h.trimmed_eq, h.filled]

theorem filledItems_of_isTrimmed {items : List String} (h : ∀ text ∈ items, IsTrimmed text) :
    filledItems items = items := by
  have same : items.map trimmed = items := by
    exact (List.map_congr_left fun text member => (h text member).trimmed_eq).trans
      (List.map_id items)
  rw [filledItems, same, List.filter_eq_self]
  exact fun text member => by simp [(h text member).filled]

/-- An upgrade whose texts are not empty and have no blanks at their ends. -/
structure Upgrade.IsTrimmed (u : Upgrade) : Prop where
  key : ∀ key, u.key = some key → TerraformPins.IsTrimmed key
  target : TerraformPins.IsTrimmed u.target
  onlyFrom : ∀ text ∈ u.onlyFrom, TerraformPins.IsTrimmed text
  keepVersions : ∀ text ∈ u.keepVersions, TerraformPins.IsTrimmed text
  keepNames : ∀ text ∈ u.keepNames, TerraformPins.IsTrimmed text

/-! ### Nodes -/

namespace Yaml

namespace Node

/-- A text in quotes. -/
def quoted (text : String) : Node :=
  .scalar none .quoted text.toList

/-- Nodes that hold texts in quotes: a list of them, or a single one alone. -/
inductive Quotes : Node → List String → Prop
  | list (texts : List String) : Quotes (.list none (texts.map quoted)) texts
  | alone (text : String) : Quotes (quoted text) [text]

/-- A mapping with the given fields, which are all different and among the known ones. Their names
may be written in any style. -/
structure HasFields (known : List String) (fields : List (String × Node)) (node : Node) : Prop where
  mapping : ∃ pairs : List (Node × Node), node = .mapping none pairs ∧
    pairs.map (fun p => (p.1.text?, p.2)) = fields.map fun f => (some f.1, f.2)
  known : ∀ f ∈ fields, f.1 ∈ known
  distinct : (fields.map Prod.fst).Nodup

theorem optionalText?_quoted (text : String) : (quoted text).optionalText? = some (some text) := by
  simp [quoted, optionalText?]

/-- A quoted text or a list of them is read as these texts. -/
theorem texts?_of_quotes {node : Node} {texts : List String} (h : node.Quotes texts) :
    node.texts? = some texts := by
  cases h with
  | list =>
    have all : (texts.map quoted).mapM text? = some texts := by
      induction texts with
      | nil => rfl
      | cons text texts ih => simp [List.mapM_cons, ih, quoted, text?]
    simpa [texts?, isLocalTag] using all
  | alone text => simp [quoted, texts?, valueText?]

/-- A mapping is read if its keys are known and none is there twice. -/
theorem fields?_of_hasFields {known : List String} {fields : List (String × Node)} {node : Node}
    (h : node.HasFields known fields) : node.fields? known = some fields := by
  obtain ⟨pairs, rfl, same⟩ := h.mapping
  -- The pairs are read one by one; that the fields are known and different is looked at afterwards.
  have named : pairs.mapM (fun p : Node × Node => p.1.text?.map (·, p.2)) = some fields := by
    clear h
    induction pairs generalizing fields with
    | nil =>
      obtain rfl := List.map_eq_nil_iff.mp same.symm
      rfl
    | cons p pairs ih =>
      cases fields with
      | nil => cases same
      | cons f fields =>
        obtain ⟨here, there⟩ := List.cons.inj same
        obtain ⟨name, value⟩ := Prod.mk.inj here
        simp [List.mapM_cons, ih there, name, value]
  have all : (fields.map Prod.fst).all known.contains = true := by
    simpa [List.all_eq_true] using fun name node member => h.known (name, node) member
  have length := (length_eraseDups_iff _).mpr h.distinct
  show (pairs.mapM (fun p : Node × Node => p.1.text?.map (·, p.2))).bind _ = _
  rw [named]
  simp only [Option.bind_some, all, length]
  simp

end Node

section Fields

variable {α : Type} {fields : List (String × Node)} {name : String} {node : Node}

/-- A field that is there is read from its node. -/
theorem field?_of_mem (distinct : (fields.map Prod.fst).Nodup) (member : (name, node) ∈ fields)
    (read : Node → Option α) (absent : α) : field? fields name read absent = read node := by
  have found : fields.find? (·.1 == name) = some (name, node) := by
    induction fields with
    | nil => cases member
    | cons f fields ih =>
      rw [List.map_cons, List.nodup_cons] at distinct
      rcases List.mem_cons.mp member with rfl | inside
      · simp
      · have differs : f.1 ≠ name := by
          rintro rfl
          exact distinct.1 (List.mem_map.mpr ⟨_, inside, rfl⟩)
        simp [differs, ih distinct.2 inside]
  rw [field?, found]

/-- A field that is not there has its default. -/
theorem field?_of_not_mem (missing : ∀ node, (name, node) ∉ fields) (read : Node → Option α)
    (absent : α) : field? fields name read absent = some absent := by
  have found : fields.find? (·.1 == name) = none := by
    rw [List.find?_eq_none]
    rintro ⟨other, node⟩ member same
    obtain rfl := eq_of_beq same
    exact missing node member
  rw [field?, found]

/-- A field that holds texts in quotes. If there are none, it can be left out. -/
def FieldQuotes (fields : List (String × Node)) (name : String) (texts : List String) : Prop :=
  (∃ node, (name, node) ∈ fields ∧ node.Quotes texts) ∨ (∀ node, (name, node) ∉ fields) ∧ texts = []

/-- A field that holds a text in quotes, or is left out. -/
def FieldQuotes? (fields : List (String × Node)) (name : String) : Option String → Prop
  | some text => (name, .quoted text) ∈ fields
  | none => ∀ node, (name, node) ∉ fields

/-- A field that holds a truth value, or is left out if it is false. -/
def FieldSays (fields : List (String × Node)) (name : String) (b : Bool) : Prop :=
  (∃ text, (name, .scalar none .plain text) ∈ fields ∧ Value.truth? text = some b) ∨
    (∀ node, (name, node) ∉ fields) ∧ b = false

theorem field?_of_quotes (distinct : (fields.map Prod.fst).Nodup) {texts : List String}
    (h : FieldQuotes fields name texts) : field? fields name Node.texts? [] = some texts := by
  rcases h with ⟨node, member, quotes⟩ | ⟨missing, rfl⟩
  · rw [field?_of_mem distinct member, Node.texts?_of_quotes quotes]
  · exact field?_of_not_mem missing _ _

theorem field?_of_quotes? (distinct : (fields.map Prod.fst).Nodup) {text : Option String}
    (h : FieldQuotes? fields name text) :
    field? fields name Node.optionalText? none = some text := by
  cases text with
  | some text => rw [field?_of_mem distinct h, Node.optionalText?_quoted]
  | none => exact field?_of_not_mem h _ _

theorem field?_of_says (distinct : (fields.map Prod.fst).Nodup) {b : Bool}
    (h : FieldSays fields name b) : field? fields name Node.flag? false = some b := by
  rcases h with ⟨text, member, truth⟩ | ⟨missing, rfl⟩
  · rw [field?_of_mem distinct member]
    simpa [Node.flag?] using truth
  · exact field?_of_not_mem missing _ _

end Fields

end Yaml

open Yaml

/-! ### Entries -/

/-- The fields of an entry that say an upgrade, each text in quotes. -/
structure Upgrade.SaidBy (u : Upgrade) (part : BatchSection)
    (fields : List (String × Node)) : Prop where
  kind : u.kind = part.kind
  key : ∀ field, part.keyField? = some field → ∃ key, u.key = some key ∧
    (field, .quoted key) ∈ fields
  noKey : part.keyField? = none → u.key = none
  version : ("version", .quoted u.target) ∈ fields
  onlyFrom : FieldQuotes fields "from" u.onlyFrom
  keepVersions : FieldQuotes fields "ignore_versions" u.keepVersions
  keepNames : FieldQuotes fields "ignore_names" u.keepNames

namespace DraftEntry

/-- An upgrade as the draft of an entry. -/
def ofUpgrade (u : Upgrade) : DraftEntry :=
  ⟨u.key, some u.target, u.onlyFrom, u.keepVersions, u.keepNames⟩

/-- An entry that says an upgrade is read as the draft of it. -/
theorem ofNode?_of_saidBy {u : Upgrade} {part : BatchSection} {fields : List (String × Node)}
    {entry : Node} (isEntry : entry.HasFields part.fields fields) (said : u.SaidBy part fields) :
    ofNode? part entry = some (ofUpgrade u) := by
  have distinct := isEntry.distinct
  have version : field? fields "version" Node.optionalText? none = some (some u.target) :=
    field?_of_quotes? distinct
      (show FieldQuotes? fields "version" (some u.target) from said.version)
  have onlyFrom := field?_of_quotes distinct said.onlyFrom
  have keepVersions := field?_of_quotes distinct said.keepVersions
  have keepNames := field?_of_quotes distinct said.keepNames
  rw [ofNode?, Node.fields?_of_hasFields isEntry]
  simp only [Option.bind_eq_bind, Option.bind_some, version, onlyFrom, keepVersions, keepNames]
  cases field : part.keyField? with
  | none => simp [ofUpgrade, said.noKey field]
  | some name =>
    obtain ⟨key, same, member⟩ := said.key name field
    have held : field? fields name Node.optionalText? none = some (some key) :=
      field?_of_quotes? distinct (show FieldQuotes? fields name (some key) from member)
    simp [ofUpgrade, same, held]

/-- An entry without blanks at the ends of its texts is taken as it is written. -/
theorem check_of_isTrimmed {u : Upgrade} {part : BatchSection} {fields : List (String × Node)}
    (said : u.SaidBy part fields) (clean : u.IsTrimmed) (index : Nat) :
    check part index (ofUpgrade u) = .ok u := by
  obtain ⟨kind, key, target, onlyFrom, keepVersions, keepNames⟩ := u
  obtain rfl : kind = part.kind := said.kind
  have version := filled?_of_isTrimmed clean.target
  have lists := And.intro (filledItems_of_isTrimmed clean.onlyFrom)
    (And.intro (filledItems_of_isTrimmed clean.keepVersions)
      (filledItems_of_isTrimmed clean.keepNames))
  -- Only entries of `terraform` have no key.
  cases field : part.keyField? with
  | none =>
    obtain rfl : key = none := said.noKey field
    simp_all [check, ofUpgrade, bind, Except.bind, pure, Except.pure]
  | some name =>
    obtain ⟨text, rfl, -⟩ := said.key name field
    have named := filled?_of_isTrimmed (clean.key text rfl)
    simp_all [check, ofUpgrade, bind, Except.bind, pure, Except.pure, Functor.map, Except.map]

end DraftEntry

/-! ### Batches -/

/-- A batch whose only entry says an upgrade, each text in quotes. It may also name files, and say
whether versions are added. -/
inductive Upgrade.AloneIn (u : Upgrade) (files : Option String) (addMissing : Bool) : Node → Prop
  | mk {part : BatchSection} {node held entry : Node} {fields entryFields : List (String × Node)}
      (isBatch : node.HasFields ["files", "force_add", "modules", "providers", "terraform"] fields)
      (isEntry : entry.HasFields part.fields entryFields) (said : u.SaidBy part entryFields)
      (holds : (part.word, held) ∈ fields)
      (only : held = .list none [entry] ∨ part = .terraform ∧ held = entry)
      (others : ∀ other, other ≠ part → ∀ node, (other.word, node) ∈ fields → node = .list none [])
      (isFiles : FieldQuotes? fields "files" files)
      (isFlag : FieldSays fields "force_add" addMissing) : AloneIn u files addMissing node

namespace BatchDraft

variable {u : Upgrade} {part : BatchSection} {fields : List (String × Node)}

/-- The entries of a section are read from a list, or for `terraform` from one entry as well. -/
def section? (other : BatchSection) : Node → Option (List DraftEntry) :=
  match other with
  | .modules => DraftEntry.listOfNode? .modules
  | .providers => DraftEntry.listOfNode? .providers
  | .terraform => DraftEntry.someOfNode? .terraform

/-- The sections of a batch with one entry. -/
theorem section?_eq {held entry : Node} {draft : DraftEntry}
    (distinct : (fields.map Prod.fst).Nodup) (holds : (part.word, held) ∈ fields)
    (only : held = .list none [entry] ∨
      part = .terraform ∧ held = entry ∧ ∃ pairs, entry = .mapping none pairs)
    (others : ∀ other, other ≠ part → ∀ node, (other.word, node) ∈ fields → node = .list none [])
    (read : DraftEntry.ofNode? part entry = some draft) (other : BatchSection) :
    field? fields other.word (section? other) [] = some (if other = part then [draft] else []) := by
  -- The section of the entry is there; another one may be left out, or is an empty list.
  by_cases same : other = part
  · subst same
    rw [field?_of_mem distinct holds, if_pos rfl]
    rcases only with rfl | ⟨rfl, rfl, pairs, rfl⟩
    · cases other <;>
        simp [section?, DraftEntry.listOfNode?, DraftEntry.someOfNode?, Node.items?,
          Node.isLocalTag, read]
    · simp [section?, DraftEntry.someOfNode?, Node.isLocalTag, read]
  · rw [if_neg same]
    by_cases there : ∃ node, (other.word, node) ∈ fields
    · obtain ⟨node, member⟩ := there
      obtain rfl := others other same node member
      rw [field?_of_mem distinct member]
      cases other <;>
        simp [section?, DraftEntry.listOfNode?, DraftEntry.someOfNode?, Node.items?,
          Node.isLocalTag]
    · exact field?_of_not_mem (not_exists.mp there) _ _

end BatchDraft

/-- A batch with one upgrade is read as this upgrade, if its texts have no blanks at their ends. -/
theorem BatchDraft.check_of_aloneIn {u : Upgrade} {files : Option String} {addMissing : Bool}
    {node : Node} (alone : u.AloneIn files addMissing node) (clean : u.IsTrimmed) :
    ∃ draft, ofNode? node = some draft ∧ draft.check = .ok ⟨filled? files, addMissing, [u]⟩ := by
  obtain @⟨part, _, held, entry, fields, entryFields, isBatch, isEntry, said, holds, only, others,
    isFiles, isFlag⟩ := alone
  have distinct := isBatch.distinct
  have only' : held = .list none [entry] ∨
      part = .terraform ∧ held = entry ∧ ∃ pairs, entry = .mapping none pairs := by
    obtain ⟨pairs, isMapping, -⟩ := isEntry.mapping
    exact only.imp id fun ⟨isTerraform, same⟩ => ⟨isTerraform, same, pairs, isMapping⟩
  have sections := section?_eq distinct holds only' others
    (DraftEntry.ofNode?_of_saidBy isEntry said)
  have modules := sections .modules
  have providers := sections .providers
  have terraform := sections .terraform
  simp only [section?, BatchSection.word] at modules providers terraform
  have here : DraftEntry.checkAll part [DraftEntry.ofUpgrade u] = .ok [u] := by
    simp [DraftEntry.checkAll, DraftEntry.check_of_isTrimmed said clean, bind, Except.bind, pure,
      Except.pure]
  have elsewhere (other : BatchSection) : DraftEntry.checkAll other [] = .ok [] := rfl
  -- Which section holds the entry does not matter: the three lists are put together in the end.
  let entriesOf (other : BatchSection) := if other = part then [DraftEntry.ofUpgrade u] else []
  refine
    ⟨⟨files, addMissing, entriesOf .modules, entriesOf .providers, entriesOf .terraform⟩, ?_, ?_⟩
  · rw [ofNode?, Node.fields?_of_hasFields isBatch]
    simp only [Option.bind_eq_bind, Option.bind_some, field?_of_quotes? distinct isFiles,
      field?_of_says distinct isFlag, modules, providers, terraform]
    rfl
  · cases part <;> simp [entriesOf, check, here, elsewhere, bind, Except.bind, pure, Except.pure]

/-- So is its text. -/
theorem Batch.ofText_of_aloneIn {u : Upgrade} {files : Option String} {addMissing : Bool}
    {text : String} {node : Node} (read : Node.ofText? text = some node)
    (alone : u.AloneIn files addMissing node) (clean : u.IsTrimmed) :
    Batch.ofText text = .ok ⟨filled? files, addMissing, [u]⟩ := by
  obtain ⟨draft, drafted, checked⟩ := BatchDraft.check_of_aloneIn alone clean
  have found : BatchDraft.ofText? text = some draft := by
    rw [BatchDraft.ofText?, read, Option.bind_some, drafted]
  rw [Batch.ofText, found]
  exact checked

end TerraformPins
