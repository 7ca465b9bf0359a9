import TerraformPins.Proofs.Batch.Meaning

/-!
# Batches with an open field

To compare two ways of writing one value, the batch around it is kept as a frame, into which either
can be filled. The open field stands in an entry, the entry in a section, and the section in the
batch. Where the field takes a list of texts, the batch sees nothing of its value but the texts: the
reading of all other fields is the same, and whether they are in order is the same.

## Main definitions

* `Yaml.FieldFrame` — a mapping in which the value of one field is left open
* `SectionFrame` — a section in which one entry is left open
* `BatchFrame` — a batch in which the value of one field of an entry is left open

## Main results

* `DraftEntry.ofNode?_fill` — of an open field, an entry knows only the texts
* `BatchDraft.ofNode?_fill` — so does the draft of a batch
-/

namespace TerraformPins

namespace Yaml

/-! ### Open fields -/

/-- A mapping in which the value of one field is left open. -/
structure FieldFrame where
  tag : Option (List Char)
  before : List (Node × Node)
  key : Node
  after : List (Node × Node)

namespace FieldFrame

/-- The mapping with a value in its open field. -/
def fill (f : FieldFrame) (value : Node) : Node :=
  .mapping f.tag (f.before ++ (f.key, value) :: f.after)

/-- The fields of a mapping are those of its frame with the value between them, or the frame is
refused whatever the value is. -/
theorem fields?_fill (f : FieldFrame) (known : List String) :
    (∀ value, (f.fill value).fields? known = none) ∨
      ∃ front name back, f.key.text? = some name ∧ name ∈ known ∧
        (∀ value, (f.fill value).fields? known = some (front ++ (name, value) :: back)) ∧
        ∀ value : Node, ((front ++ (name, value) :: back).map Prod.fst).Nodup := by
  let named (pair : Node × Node) : Option (String × Node) := pair.1.text?.map (·, pair.2)
  have fields (value : Node) : (f.fill value).fields? known =
      (do
        let front ← f.before.mapM named
        let name ← f.key.text?
        let back ← f.after.mapM named
        let fields := front ++ (name, value) :: back
        let names := fields.map Prod.fst
        if names.all known.contains && names.eraseDups.length == names.length then pure fields
        else none) := by
    show ((f.before ++ (f.key, value) :: f.after).mapM named).bind _ = _
    rw [List.mapM_append, List.mapM_cons,
      show named (f.key, value) = f.key.text?.map (·, value) from rfl]
    cases f.before.mapM named <;> cases f.key.text? <;> cases f.after.mapM named <;> rfl
  cases inFront : f.before.mapM named with
  | none => exact .inl fun value => by rw [fields, inFront]; rfl
  | some front =>
  cases called : f.key.text? with
  | none => exact .inl fun value => by rw [fields, inFront, called]; rfl
  | some name =>
  cases behind : f.after.mapM named with
  | none => exact .inl fun value => by rw [fields, inFront, called, behind]; rfl
  | some back =>
  -- Whether the fields are known and different does not depend on the value either.
  let names := front.map Prod.fst ++ name :: back.map Prod.fst
  have all (value : Node) : (front ++ (name, value) :: back).map Prod.fst = names := by
    rw [List.map_append, List.map_cons]
  have checked (value : Node) : (f.fill value).fields? known =
      if names.all known.contains && names.eraseDups.length == names.length then
        some (front ++ (name, value) :: back)
      else none := by
    rw [fields, inFront, called, behind]
    simp only [Option.bind_eq_bind, Option.bind_some, all]
    rfl
  by_cases passed : (names.all known.contains && names.eraseDups.length == names.length) = true
  · obtain ⟨inside, count⟩ := Bool.and_eq_true_iff.mp passed
    have member : name ∈ names := List.mem_append_right _ List.mem_cons_self
    refine .inr ⟨front, name, back, rfl, ?_, fun value => by rw [checked, if_pos passed],
      fun value => ?_⟩
    · simpa using List.all_eq_true.mp inside name member
    · rw [all]
      exact (length_eraseDups_iff names).mp (beq_iff_eq.mp count)
  · exact .inl fun value => by rw [checked, if_neg passed]

end FieldFrame

section Fields

variable {α : Type} {front back : List (String × Node)} {name asked : String} {v w : Node}
  {read : Node → Option α} {absent : α}

/-- A reader of one field does not see another one that is open. -/
theorem field?_of_ne (other : asked ≠ name) :
    field? (front ++ (name, v) :: back) asked read absent =
      field? (front ++ (name, w) :: back) asked read absent := by
  have elsewhere : (name == asked) = false := by simpa using other.symm
  unfold field?
  rw [List.find?_append, List.find?_append, List.find?_cons_of_neg (by simp [elsewhere]),
    List.find?_cons_of_neg (by simp [elsewhere])]

/-- A reader of the open field sees its value. -/
theorem field?_open (distinct : ((front ++ (name, v) :: back).map Prod.fst).Nodup) :
    field? (front ++ (name, v) :: back) name read absent = read v :=
  field?_of_mem distinct (List.mem_append_right _ List.mem_cons_self) read absent

end Fields

end Yaml

open Yaml

/-! ### Entries -/

/-- The fields of an entry that take a list of texts. -/
def listFields : List String := ["from", "ignore_versions", "ignore_names"]

namespace DraftEntry

/-- The entry with other items in a field that takes a list of texts. -/
def withItems (e : DraftEntry) (field : String) (texts : List String) : DraftEntry :=
  if field = "from" then { e with onlyFrom := texts }
  else if field = "ignore_versions" then { e with keepVersions := texts }
  else { e with keepNames := texts }

@[simp] theorem key_withItems (e : DraftEntry) (field : String) (texts : List String) :
    (e.withItems field texts).key = e.key := by
  unfold withItems
  split_ifs <;> rfl

@[simp] theorem version_withItems (e : DraftEntry) (field : String) (texts : List String) :
    (e.withItems field texts).version = e.version := by
  unfold withItems
  split_ifs <;> rfl

/-- The key of an entry stands in no such field. -/
theorem keyField?_ne {part : BatchSection} {name field : String}
    (keyed : part.keyField? = some name) (isList : field ∈ listFields) : name ≠ field := by
  rintro rfl
  revert isList
  cases part <;> cases keyed <;> decide

/-- The entry that the fields of a mapping say. -/
def ofFields? (part : BatchSection) (fields : List (String × Node)) : Option DraftEntry :=
  (part.keyField?.elim (some none) fun name =>
    field? fields name Node.optionalText? none).bind fun key =>
  (field? fields "version" Node.optionalText? none).bind fun version =>
  (field? fields "from" Node.texts? []).bind fun onlyFrom =>
  (field? fields "ignore_versions" Node.texts? []).bind fun keepVersions =>
  (field? fields "ignore_names" Node.texts? []).bind fun keepNames =>
  some ⟨key, version, onlyFrom, keepVersions, keepNames⟩

theorem ofNode?_eq (part : BatchSection) (node : Node) :
    ofNode? part node = (node.fields? part.fields).bind (ofFields? part) := by
  unfold ofNode? ofFields?
  cases part.keyField? <;> rfl

/-- The entry whose three lists are read one by one. -/
def ofLists? (key version : Option String) (read : String → Option (List String)) :
    Option DraftEntry :=
  (read "from").bind fun onlyFrom =>
  (read "ignore_versions").bind fun keepVersions =>
  (read "ignore_names").bind fun keepNames =>
  some ⟨key, version, onlyFrom, keepVersions, keepNames⟩

theorem ofLists?_eq_none {key version : Option String} {read : String → Option (List String)}
    {name : String} (isList : name ∈ listFields) (refused : read name = none) :
    ofLists? key version read = none := by
  unfold ofLists?
  rcases (by simpa [listFields] using isList :
    name = "from" ∨ name = "ignore_versions" ∨ name = "ignore_names") with rfl | rfl | rfl
  · rw [refused, Option.bind_none]
  · cases read "from" <;> simp [refused]
  · cases read "from" <;> cases read "ignore_versions" <;> simp [refused]

theorem ofLists?_eq_some {key version : Option String} {read : String → Option (List String)}
    {items : String → List String} (taken : ∀ name ∈ listFields, read name = some (items name)) :
    ofLists? key version read =
      some ⟨key, version, items "from", items "ignore_versions", items "ignore_names"⟩ := by
  rw [ofLists?, taken "from" (by decide), taken "ignore_versions" (by decide),
    taken "ignore_names" (by decide)]
  rfl

/-- If only one of the lists depends on what an open field holds, the entry follows the texts of
this list. -/
theorem ofLists?_open {key version : Option String} {read : Node → String → Option (List String)}
    {field : String} (isList : field ∈ listFields) (here : ∀ value, read value field = value.texts?)
    (elsewhere : ∀ value, ∀ other ≠ field, read value other = read .empty other) :
    (∀ value, ofLists? key version (read value) = none) ∨
      ∃ e : DraftEntry, ∀ value,
        ofLists? key version (read value) = value.texts?.map (e.withItems field) := by
  -- If one of the other fields cannot be read, what the open field holds does not matter.
  by_cases fails : ∃ other ∈ listFields, other ≠ field ∧ read .empty other = none
  · obtain ⟨other, member, differs, refused⟩ := fails
    exact .inl fun value => ofLists?_eq_none member ((elsewhere value other differs).trans refused)
  · let closed (other : String) : List String := (read .empty other).getD []
    refine .inr ⟨⟨key, version, closed "from", closed "ignore_versions", closed "ignore_names"⟩,
      fun value => ?_⟩
    cases listed : value.texts? with
    | none => exact ofLists?_eq_none isList ((here value).trans listed)
    | some texts =>
      have taken : ∀ other ∈ listFields,
          read value other = some (if other = field then texts else closed other) := by
        intro other member
        by_cases same : other = field
        · rw [same, here, listed, if_pos rfl]
        · obtain ⟨items, found⟩ := Option.ne_none_iff_exists'.mp
            fun none => fails ⟨other, member, same, none⟩
          rw [elsewhere value other same, if_neg same]
          simp only [closed, found, Option.getD_some]
      rw [ofLists?_eq_some taken]
      rcases (by simpa [listFields] using isList :
        field = "from" ∨ field = "ignore_versions" ∨
          field = "ignore_names") with rfl | rfl | rfl <;> rfl

/-- Of an open field that takes a list of texts, an entry knows only the texts. -/
theorem ofFields?_open (part : BatchSection) {front back : List (String × Node)} {field : String}
    (isList : field ∈ listFields)
    (distinct : ∀ value : Node, ((front ++ (field, value) :: back).map Prod.fst).Nodup) :
    (∀ value, ofFields? part (front ++ (field, value) :: back) = none) ∨
      ∃ e : DraftEntry, ∀ value,
        ofFields? part (front ++ (field, value) :: back) = value.texts?.map
        (e.withItems field) := by
  -- The readers of the other fields see the same whatever the open one holds, so it may hold
  -- nothing.
  let fieldsWith (value : Node) := front ++ (field, value) :: back
  have elsewhere {α : Type} {asked : String} (differs : asked ≠ field) (value : Node)
      (read : Node → Option α) (absent : α) :
      field? (fieldsWith value) asked read absent = field? (fieldsWith .empty) asked read absent :=
    field?_of_ne differs
  have sameKey (value : Node) :
      (part.keyField?.elim (some none) fun name =>
        field? (fieldsWith value) name Node.optionalText? none) =
        part.keyField?.elim (some none) fun name =>
          field? (fieldsWith .empty) name Node.optionalText? none := by
    cases keyed : part.keyField? with
    | none => rfl
    | some name => exact elsewhere (keyField?_ne keyed isList) value _ _
  have sameVersion (value : Node) : field? (fieldsWith value) "version" Node.optionalText? none =
      field? (fieldsWith .empty) "version" Node.optionalText? none :=
    elsewhere (by rintro rfl; revert isList; decide) value _ _
  have read (value : Node) : ofFields? part (fieldsWith value) =
      (part.keyField?.elim (some none) fun name =>
        field? (fieldsWith .empty) name Node.optionalText? none).bind fun key =>
      (field? (fieldsWith .empty) "version" Node.optionalText? none).bind fun version =>
      ofLists? key version fun name => field? (fieldsWith value) name Node.texts? [] := by
    rw [← sameKey value, ← sameVersion value]
    rfl
  show (∀ value, ofFields? part (fieldsWith value) = none) ∨ ∃ e : DraftEntry, ∀ value,
    ofFields? part (fieldsWith value) = value.texts?.map (e.withItems field)
  simp only [read]
  cases part.keyField?.elim (some none) fun name =>
      field? (fieldsWith .empty) name Node.optionalText? none with
  | none => exact .inl fun _ => rfl
  | some key =>
  cases field? (fieldsWith .empty) "version" Node.optionalText? none with
  | none => exact .inl fun _ => rfl
  | some version =>
  simp only [Option.bind_some]
  exact ofLists?_open isList (fun value => field?_open (distinct value))
    fun value other differs => elsewhere differs value Node.texts? []

/-- Of a field that takes a list of texts, an entry knows only the texts. -/
theorem ofNode?_fill (part : BatchSection) {f : FieldFrame} {field : String}
    (named : f.key.text? = some field) (isList : field ∈ listFields) :
    (∀ value, ofNode? part (f.fill value) = none) ∨
      ∃ e : DraftEntry, ∀ value, ofNode? part (f.fill value) = value.texts?.map
      (e.withItems field) := by
  simp only [ofNode?_eq]
  rcases f.fields?_fill part.fields with refused | ⟨front, name, back, called, -, fields, distinct⟩
  · exact .inl fun value => by rw [refused, Option.bind_none]
  · obtain rfl : field = name := Option.some.inj (named.symm.trans called)
    simp only [fields, Option.bind_some]
    exact ofFields?_open part isList distinct

end DraftEntry

/-! ### Sections -/

/-- A section in which one entry is left open. The entry stands alone or among others in a list. -/
inductive SectionFrame where
  | alone
  | among (tag : Option (List Char)) (before after : List Node)

namespace SectionFrame

/-- The section with an entry in the open place. -/
def fill (entry : Node) : SectionFrame → Node
  | alone => entry
  | among tag before after => .list tag (before ++ entry :: after)

/-- A section that holds an entry is no text. -/
theorem optionalText?_fill (s : SectionFrame) (f : FieldFrame) (value : Node) :
    (s.fill (f.fill value)).optionalText? = none := by
  cases s <;> rfl

theorem flag?_fill (s : SectionFrame) (f : FieldFrame) (value : Node) :
    (s.fill (f.fill value)).flag? = none := by
  cases s <;> rfl

end SectionFrame

namespace BatchDraft

variable {field : String}

/-- Of an open field in the entry of a list, the entries know only the texts. -/
theorem mapM_ofNode?_fill (part : BatchSection) {f : FieldFrame} (before after : List Node)
    (named : f.key.text? = some field) (isList : field ∈ listFields) :
    (∀ value, (before ++ f.fill value :: after).mapM (DraftEntry.ofNode? part) = none) ∨
      ∃ front e back, ∀ value, (before ++ f.fill value :: after).mapM (DraftEntry.ofNode? part) =
        value.texts?.map fun texts => front ++ DraftEntry.withItems e field texts :: back := by
  simp only [List.mapM_append, List.mapM_cons]
  cases before.mapM (DraftEntry.ofNode? part) with
  | none => exact .inl fun _ => rfl
  | some front =>
  rcases DraftEntry.ofNode?_fill part named isList with refused | ⟨e, read⟩
  · exact .inl fun value => by rw [refused]; rfl
  · cases after.mapM (DraftEntry.ofNode? part) with
    | none => exact .inl fun value => by rw [read]; cases value.texts? <;> rfl
    | some back =>
      exact .inr ⟨front, e, back, fun value => by rw [read]; cases value.texts? <;> rfl⟩

/-- Of an open field in one of its entries, a section knows only the texts. -/
theorem section?_fill (part : BatchSection) (s : SectionFrame) {f : FieldFrame}
    (named : f.key.text? = some field) (isList : field ∈ listFields) :
    (∀ value, section? part (s.fill (f.fill value)) = none) ∨
      ∃ front e back, ∀ value, section? part (s.fill (f.fill value)) =
        value.texts?.map fun texts => front ++ DraftEntry.withItems e field texts :: back := by
  cases s with
  | among tag before after =>
    have entries := mapM_ofNode?_fill part before after named isList
    cases part with
    | modules => exact entries
    | providers => exact entries
    | terraform =>
      -- Only here the tag of the list counts.
      by_cases own : Node.isLocalTag tag = true
      · exact .inl fun value => if_pos own
      · have read (value : Node) : section? .terraform ((SectionFrame.among tag before after).fill
            (f.fill value)) = (before ++ f.fill value :: after).mapM
              (DraftEntry.ofNode? .terraform) :=
          if_neg own
        simpa only [read] using entries
  | alone =>
    cases part with
    | modules => exact .inl fun _ => rfl
    | providers => exact .inl fun _ => rfl
    | terraform =>
      by_cases own : Node.isLocalTag f.tag = true
      · exact .inl fun value => if_pos own
      · have read (value : Node) : section? .terraform (SectionFrame.alone.fill (f.fill value)) =
            (DraftEntry.ofNode? .terraform (f.fill value)).map ([·]) := if_neg own
        simp only [read]
        rcases DraftEntry.ofNode?_fill .terraform named isList with refused | ⟨e, same⟩
        · exact .inl fun value => by rw [refused, Option.map_none]
        · exact .inr ⟨[], e, [], fun value => by rw [same, Option.map_map]; rfl⟩

/-! ### Batches -/

/-- A draft with other entries in a section. -/
def withEntries (d : BatchDraft) (part : BatchSection) (es : List DraftEntry) : BatchDraft :=
  match part with
  | .modules => { d with modules := es }
  | .providers => { d with providers := es }
  | .terraform => { d with terraform := es }

/-- The draft of sections that are read one by one, in the order of the parts. -/
def ofSections? (files : Option String) (addMissing : Bool)
    (read : BatchSection → Option (List DraftEntry)) : Option BatchDraft :=
  (read .modules).bind fun modules =>
  (read .providers).bind fun providers =>
  (read .terraform).bind fun terraform =>
  some ⟨files, addMissing, modules, providers, terraform⟩

theorem ofSections?_eq_none {files : Option String} {addMissing : Bool}
    {read : BatchSection → Option (List DraftEntry)} {part : BatchSection}
    (refused : read part = none) : ofSections? files addMissing read = none := by
  unfold ofSections?
  cases part
  · rw [refused, Option.bind_none]
  · cases read .modules <;> simp [refused]
  · cases read .modules <;> cases read .providers <;> simp [refused]

theorem ofSections?_eq_some {files : Option String} {addMissing : Bool}
    {read : BatchSection → Option (List DraftEntry)} {es : BatchSection → List DraftEntry}
    (taken : ∀ part, read part = some (es part)) :
    ofSections? files addMissing read =
      some ⟨files, addMissing, es .modules, es .providers, es .terraform⟩ := by
  simp only [ofSections?, taken, Option.bind_some]

/-- If only the entries of one section depend on what an open field holds, the draft follows its
texts. -/
theorem ofSections?_open {files : Option String} {addMissing : Bool}
    {read : Node → BatchSection → Option (List DraftEntry)} {part : BatchSection}
    {before after : List DraftEntry} {e : DraftEntry}
    (here : ∀ value, read value part =
      value.texts?.map fun texts => before ++ DraftEntry.withItems e field texts :: after)
    (elsewhere : ∀ value, ∀ other ≠ part, read value other = read .empty other) :
    (∀ value, ofSections? files addMissing (read value) = none) ∨
      ∃ d, ∀ value, ofSections? files addMissing (read value) = value.texts?.map fun texts =>
        withEntries d part (before ++ DraftEntry.withItems e field texts :: after) := by
  -- If one of the other sections cannot be read, what the open field holds does not matter.
  by_cases fails : ∃ other, other ≠ part ∧ read .empty other = none
  · obtain ⟨other, differs, refused⟩ := fails
    exact .inl fun value => ofSections?_eq_none ((elsewhere value other differs).trans refused)
  · let closed (other : BatchSection) : List DraftEntry := (read .empty other).getD []
    refine .inr ⟨⟨files, addMissing, closed .modules, closed .providers, closed .terraform⟩,
      fun value => ?_⟩
    cases listed : value.texts? with
    | none =>
      apply ofSections?_eq_none
      rw [here, listed, Option.map_none]
    | some texts =>
      let opened := before ++ e.withItems field texts :: after
      have taken (other : BatchSection) :
          read value other = some (if other = part then opened else closed other) := by
        by_cases same : other = part
        · rw [same, here, listed, if_pos rfl]
          rfl
        · obtain ⟨es, found⟩ := Option.ne_none_iff_exists'.mp fun none => fails ⟨other, same, none⟩
          rw [elsewhere value other same, if_neg same]
          simp only [closed, found, Option.getD_some]
      rw [ofSections?_eq_some taken]
      cases part <;> rfl

/-- The draft that the fields of a mapping say. -/
def ofFields? (fields : List (String × Node)) : Option BatchDraft :=
  (field? fields "files" Node.optionalText? none).bind fun files =>
  (field? fields "force_add" Node.flag? false).bind fun addMissing =>
  ofSections? files addMissing fun part => field? fields part.word (section? part) []

/-- The fields of a batch. -/
def knownFields : List String := ["files", "force_add", "modules", "providers", "terraform"]

theorem ofNode?_eq (node : Node) : ofNode? node = (node.fields? knownFields).bind ofFields? :=
  rfl

/-- Of a field that is open in an entry of one of its sections, a draft knows only the texts. -/
theorem ofFields?_open {front back : List (String × Node)} {name : String}
    (known : name ∈ knownFields)
    (distinct : ∀ value : Node, ((front ++ (name, value) :: back).map Prod.fst).Nodup)
    (s : SectionFrame) {f : FieldFrame} (named : f.key.text? = some field)
    (isList : field ∈ listFields) :
    (∀ value, ofFields? (front ++ (name, s.fill (f.fill value)) :: back) = none) ∨
      ∃ d part before e after, ∀ value, ofFields? (front ++ (name, s.fill (f.fill value)) :: back) =
        value.texts?.map fun texts =>
          withEntries d part (before ++ DraftEntry.withItems e field texts :: after) := by
  let held (value : Node) := s.fill (f.fill value)
  let fieldsWith (node : Node) := front ++ (name, node) :: back
  have elsewhere {α : Type} {asked : String} (differs : asked ≠ name) (node : Node)
      (read : Node → Option α) (absent : α) :
      field? (fieldsWith node) asked read absent = field? (fieldsWith .empty) asked read absent :=
    field?_of_ne differs
  have here {α : Type} (node : Node) (read : Node → Option α) (absent : α) :
      field? (fieldsWith node) name read absent = read node := field?_open (distinct node)
  show (∀ value, ofFields? (fieldsWith (held value)) = none) ∨ ∃ d part before e after, ∀ value,
    ofFields? (fieldsWith (held value)) = value.texts?.map fun texts =>
      withEntries d part (before ++ DraftEntry.withItems e field texts :: after)
  rcases (by simpa [knownFields] using known :
    name = "files" ∨ name = "force_add" ∨
      name = "modules" ∨ name = "providers" ∨ name = "terraform") with rfl | rfl | isPart
  · -- What holds an entry is no pattern of files,
    exact .inl fun value =>
      by rw [ofFields?, here, SectionFrame.optionalText?_fill, Option.bind_none]
  · -- and no truth value.
    refine .inl fun value => ?_
    rw [ofFields?, here, SectionFrame.flag?_fill]
    cases field? (fieldsWith (held value)) "files" Node.optionalText? none <;> rfl
  · obtain ⟨part, rfl⟩ : ∃ part : BatchSection, name = part.word := by
      rcases isPart with rfl | rfl | rfl
      · exact ⟨.modules, rfl⟩
      · exact ⟨.providers, rfl⟩
      · exact ⟨.terraform, rfl⟩
    simp only [ofFields?, elsewhere (show "files" ≠ part.word by cases part <;> decide),
      elsewhere (show "force_add" ≠ part.word by cases part <;> decide)]
    cases field? (fieldsWith .empty) "files" Node.optionalText? none with
    | none => exact .inl fun _ => rfl
    | some files =>
    cases field? (fieldsWith .empty) "force_add" Node.flag? false with
    | none => exact .inl fun _ => rfl
    | some addMissing =>
    simp only [Option.bind_some]
    -- The section of the entry is read from its frame, and the other ones from fields that stay.
    let reader (value : Node) (other : BatchSection) : Option (List DraftEntry) :=
      field? (fieldsWith (held value)) other.word (section? other) []
    have others (value : Node) (other : BatchSection) (differs : other ≠ part) :
        reader value other = reader .empty other := by
      have apart : other.word ≠ part.word := by
        revert differs
        cases other <;> cases part <;> decide
      exact (elsewhere apart _ _ _).trans (elsewhere apart _ _ _).symm
    rcases section?_fill part s named isList with refused | ⟨before, e, after, read⟩
    · exact .inl fun value => ofSections?_eq_none ((here _ _ _).trans (refused value))
    · have opened (value : Node) : reader value part =
          value.texts?.map fun texts => before ++ DraftEntry.withItems e field texts :: after :=
        (here _ _ _).trans (read value)
      rcases ofSections?_open opened others with refused | ⟨d, taken⟩
      · exact .inl refused
      · exact .inr ⟨d, part, before, e, after, taken⟩

end BatchDraft

/-- A batch in which the value of one field in one entry of a section is left open. -/
structure BatchFrame where
  batch : FieldFrame
  part : SectionFrame
  entry : FieldFrame

/-- The batch with a value in its open field. -/
def BatchFrame.fill (f : BatchFrame) (value : Node) : Node :=
  f.batch.fill (f.part.fill (f.entry.fill value))

/-- Of an open field that takes a list of texts, a draft knows only the texts. -/
theorem BatchDraft.ofNode?_fill (f : BatchFrame) {field : String}
    (named : f.entry.key.text? = some field) (isList : field ∈ listFields) :
    (∀ value, ofNode? (f.fill value) = none) ∨
      ∃ d part before e after, ∀ value, ofNode? (f.fill value) = value.texts?.map fun texts =>
        withEntries d part (before ++ DraftEntry.withItems e field texts :: after) := by
  simp only [ofNode?_eq, BatchFrame.fill]
  rcases f.batch.fields?_fill knownFields with refused |
    ⟨front, name, back, -, known, fields, distinct⟩
  · exact .inl fun value => by rw [refused, Option.bind_none]
  · simp only [fields, Option.bind_some]
    exact ofFields?_open known distinct f.part named isList

end TerraformPins
