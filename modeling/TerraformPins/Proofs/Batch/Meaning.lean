import Mathlib.Data.List.Forall2
import TerraformPins.Proofs.BatchNode

/-!
# What a batch means

A draft is checked section by section, entry by entry and field by field, up to the first fault.
What it means can be said without this order of work. Its entries stand in one row, the modules
first, then the providers, then those of `terraform`. If there are none, the draft asks for nothing.
If all of them are complete, each asks for one upgrade, and the batch has these upgrades in the
order of the row. Otherwise the first entry with a gap is at fault, and in it the first field that
has to be filled and is not.

A text counts without the blanks at its ends. This is said by what is cut off and what is left, not
by the way in which it is cut.

## Main definitions

* `Leaves` — what is left of a text without the blanks at its ends
* `DraftEntry.AsksFor`, `DraftEntry.HasGap` — the upgrade and the fault of an entry
* `BatchDraft.row` — the entries of all sections in a row
* `BatchDraft.Means` — what a draft means

## Main results

* `leaves_iff` — cutting the blanks off leaves what is left without them
* `DraftEntry.check_eq_ok_iff`, `DraftEntry.check_eq_error_iff_hasGap` — the check of an entry
* `BatchDraft.check_eq_iff_means` — the check of a draft says what the draft means
-/

namespace TerraformPins

/-! ### Lists that are mapped up to the first error -/

section Lists

variable {α β ε : Type} {f : α → Except ε β} {xs : List α}

/-- A list is mapped without error if each member is, and the results stand in the same order. -/
theorem mapM_eq_ok_iff {ys : List β} :
    xs.mapM f = .ok ys ↔ List.Forall₂ (fun x y => f x = .ok y) xs ys := by
  induction xs generalizing ys with
  | nil => simp [pure, Except.pure, eq_comm]
  | cons x xs ih =>
    constructor
    · intro mapped
      obtain ⟨y, rest, here, later, rfl⟩ := mapM_cons_eq_ok mapped
      exact .cons here (ih.mp later)
    · rintro (_ | ⟨here, later⟩)
      rw [List.mapM_cons, here, ih.mpr later]
      rfl

/-- The first member of a list with an error is the first of all members, or the first of the others
if it has none itself. -/
theorem exists_first_error_cons {x : α} {e : ε} :
    (∃ before z after, x :: xs = before ++ z :: after ∧ (∀ y ∈ before, ∃ w, f y = .ok w) ∧
      f z = .error e) ↔ f x = .error e ∨ (∃ y, f x = .ok y) ∧
        ∃ before z after, xs = before ++ z :: after ∧ (∀ y ∈ before, ∃ w, f y = .ok w) ∧
          f z = .error e := by
  constructor
  · rintro ⟨before, z, after, split, passed, failed⟩
    cases before with
    | nil =>
      obtain ⟨rfl, -⟩ := List.cons.inj split
      exact .inl failed
    | cons w before =>
      obtain ⟨rfl, rfl⟩ := List.cons.inj split
      obtain ⟨here, others⟩ := List.forall_mem_cons.mp passed
      exact .inr ⟨here, before, z, after, rfl, others, failed⟩
  · rintro (failed | ⟨here, before, z, after, rfl, passed, failed⟩)
    · exact ⟨[], x, xs, rfl, nofun, failed⟩
    · exact ⟨x :: before, z, after, rfl, List.forall_mem_cons.mpr ⟨here, passed⟩, failed⟩

/-- A list is mapped to the error of the first member that has one. -/
theorem mapM_eq_error_iff_first {e : ε} :
    xs.mapM f = .error e ↔
      ∃ before x after, xs = before ++ x :: after ∧ (∀ y ∈ before, ∃ z, f y = .ok z) ∧
        f x = .error e := by
  induction xs with
  | nil => simp [pure, Except.pure]
  | cons x xs ih =>
    rw [List.mapM_cons, exists_first_error_cons, ← ih]
    cases f x with
    | error fault => simp [bind, Except.bind]
    | ok y => cases xs.mapM f <;> simp [bind, Except.bind, pure, Except.pure]

/-- What a list is mapped to comes from its members. -/
theorem exists_of_mem_mapM_some {g : α → Option β} {ys : List β} (mapped : xs.mapM g = some ys)
    {y : β} (member : y ∈ ys) : ∃ x ∈ xs, g x = some y := by
  induction xs generalizing ys with
  | nil =>
    obtain rfl := Option.some.inj mapped
    exact absurd member List.not_mem_nil
  | cons x xs ih =>
    simp only [List.mapM_cons, Option.bind_eq_bind, Option.bind_eq_some_iff] at mapped
    obtain ⟨first, here, rest, later, same⟩ := mapped
    obtain rfl := Option.some.inj same
    rcases List.mem_cons.mp member with rfl | inside
    · exact ⟨x, List.mem_cons_self, here⟩
    · obtain ⟨z, there, same⟩ := ih later inside
      exact ⟨z, List.mem_cons_of_mem x there, same⟩

end Lists

/-- The fields of a mapping are among the known ones. -/
theorem Yaml.Node.known_of_fields? {known : List String} {node : Node}
    {fields : List (String × Node)} (read : node.fields? known = some fields) :
    ∀ f ∈ fields, f.1 ∈ known := by
  intro f member
  cases node with
  | mapping tag pairs =>
    simp only [fields?, Option.bind_eq_bind, Option.bind_eq_some_iff] at read
    obtain ⟨all, -, checked⟩ := read
    split at checked
    case isTrue both =>
      obtain rfl := Option.some.inj checked
      have inside :=
        List.all_eq_true.mp (Bool.and_eq_true_iff.mp both).1 f.1 (List.mem_map_of_mem member)
      simpa using inside
    case isFalse => cases checked
  | scalar tag style text =>
    simp only [fields?] at read
    split at read
    · obtain rfl := Option.some.inj read
      exact absurd member List.not_mem_nil
    · cases read
  | list tag items => simp [fields?, isEmptyPlain] at read

/-! ### What is left of a text -/

/-- What is left of a text when the blanks at its ends are cut off, if anything is left. -/
structure Leaves (text left : String) : Prop where
  isTrimmed : IsTrimmed left
  cut : ∃ front back, (∀ c ∈ front ++ back, isBlank c = true) ∧
    text.toList = front ++ left.toList ++ back

/-- A text of blanks only. -/
def IsAllBlank (text : String) : Prop :=
  ∀ c ∈ text.toList, isBlank c = true

instance (text : String) : Decidable (IsAllBlank text) :=
  inferInstanceAs (Decidable (∀ c ∈ text.toList, _))

/-- Cutting the blanks off a text leaves what is left without them. -/
theorem leaves_iff {text left : String} : Leaves text left ↔ trimmed text = left ∧ left ≠ "" := by
  constructor
  · rintro ⟨clean, front, back, blank, split⟩
    refine ⟨?_, clean.filled⟩
    have inFront : ∀ c ∈ front, isBlank c = true := fun c member =>
      blank c (List.mem_append_left _ member)
    have behind : ∀ c ∈ back.reverse, isBlank c = true := fun c member =>
      blank c (List.mem_append_right _ (List.mem_reverse.mp member))
    have some : left.toList ≠ [] := fun none => clean.filled (String.toList_eq_nil_iff.mp none)
    -- The first character that is left stops the cut from the front, and the last one that from the
    -- end.
    have start : text.toList.dropWhile isBlank = left.toList ++ back := by
      rw [split, List.append_assoc, List.dropWhile_append_of_pos inFront]
      apply dropWhile_eq_self_of_head?
      intro c head
      rw [List.head?_append_of_ne_nil _ some] at head
      exact clean.front c head
    have stop : (left.toList ++ back).reverse.dropWhile isBlank = left.toList.reverse := by
      rw [List.reverse_append, List.dropWhile_append_of_pos behind]
      apply dropWhile_eq_self_of_head?
      intro c head
      rw [List.head?_reverse] at head
      exact clean.back c head
    rw [trimmed, trim, trimWhile, start, dropEndWhile, stop, List.reverse_reverse,
      String.ofList_toList]
  · rintro ⟨rfl, filled⟩
    have shown : (trimmed text).toList = trimWhile isBlank text.toList := by
      rw [trimmed, String.toList_ofList, trim]
    have ends := trimWhile_ends isBlank text.toList
    rw [← shown] at ends
    refine ⟨⟨filled, ends.1, ends.2⟩, ?_⟩
    rw [shown]
    exact exists_cut_trimWhile isBlank text.toList

/-- Nothing is left of blanks only. -/
theorem trimmed_eq_empty_iff {text : String} : trimmed text = "" ↔ IsAllBlank text := by
  rw [trimmed, ← String.toList_inj, String.toList_ofList]
  exact trimWhile_eq_nil_iff

theorem filled?_eq_some_iff {field : Option String} {left : String} :
    filled? field = some left ↔ ∃ text, field = some text ∧ Leaves text left := by
  cases field with
  | none => simp [filled?]
  | some text =>
    rw [filled?, Option.map_some, Option.filter_eq_some_iff]
    simp only [Option.some.injEq, exists_eq_left', leaves_iff, decide_eq_true_eq]

/-- The items that a field means: those that are not blank, in their order, without the blanks at
their ends. -/
def LeavesItems (items left : List String) : Prop :=
  List.Forall₂ Leaves (items.filter (¬ IsAllBlank ·)) left

theorem filledItems_eq_iff {items left : List String} :
    filledItems items = left ↔ LeavesItems items left := by
  unfold LeavesItems
  induction items generalizing left with
  | nil => simp [filledItems, eq_comm]
  | cons text items ih =>
    by_cases blank : IsAllBlank text
    · have nothing := trimmed_eq_empty_iff.mpr blank
      rw [List.filter_cons_of_neg (by simpa using blank), ← ih]
      simp [filledItems, nothing]
    · have filled : trimmed text ≠ "" := fun nothing => blank (trimmed_eq_empty_iff.mp nothing)
      have first : filledItems (text :: items) = trimmed text :: filledItems items := by
        simp [filledItems, filled]
      rw [List.filter_cons_of_pos (by simpa using blank), first]
      constructor
      · rintro rfl
        exact .cons (leaves_iff.mpr ⟨rfl, filled⟩) (ih.mp rfl)
      · rintro (_ | ⟨here, later⟩)
        rw [(leaves_iff.mp here).1, ih.mpr later]

/-! ### Entries -/

namespace DraftEntry

/-- The upgrade that an entry of a section asks for. -/
structure AsksFor (part : BatchSection) (e : DraftEntry) (u : Upgrade) : Prop where
  kind : u.kind = part.kind
  /-- Where the section has keys, the key of the entry. -/
  key : part.keyField? ≠ none → ∃ text left, e.key = some text ∧ u.key = some left ∧
    Leaves text left
  noKey : part.keyField? = none → u.key = none
  target : ∃ text, e.version = some text ∧ Leaves text u.target
  onlyFrom : LeavesItems e.onlyFrom u.onlyFrom
  keepVersions : LeavesItems e.keepVersions u.keepVersions
  keepNames : LeavesItems e.keepNames u.keepNames

/-- The first field that an entry of a section has to fill and does not: the key, where the section
has keys, and behind it the version. -/
inductive HasGap (part : BatchSection) (e : DraftEntry) : String → Prop
  | key {field : String} (required : part.keyField? = some field) (missing : Unfilled e.key) :
      HasGap part e field
  | version (filled : part.keyField? ≠ none → ¬ Unfilled e.key) (missing : Unfilled e.version) :
      HasGap part e "version"

variable {part : BatchSection} {index : Nat} {e : DraftEntry}

/-- The check of an entry: the key, where the section has keys, comes before the version. -/
theorem check_eq :
    e.check part index =
      match part.keyField?, filled? e.key, filled? e.version with
      | some field, none, _ => .error (.missingField part index field)
      | _, _, none => .error (.missingField part index "version")
      | field?, key, some version =>
        .ok ⟨part.kind, field?.bind fun _ => key, version, filledItems e.onlyFrom,
          filledItems e.keepVersions, filledItems e.keepNames⟩ := by
  cases part <;> cases key : filled? e.key <;> cases version : filled? e.version <;>
    simp [check, BatchSection.keyField?, key, version, bind, Except.bind, pure, Except.pure,
      Functor.map, Except.map]

/-- An entry asks for the upgrade with what is left of its texts. -/
theorem asksFor_iff {u : Upgrade} :
    e.AsksFor part u ↔
      (part.keyField? ≠ none → filled? e.key ≠ none) ∧ ∃ version, filled? e.version = some version ∧
        u = ⟨part.kind, part.keyField?.bind fun _ => filled? e.key, version, filledItems e.onlyFrom,
          filledItems e.keepVersions, filledItems e.keepNames⟩ := by
  constructor
  · rintro ⟨kind, key, noKey, target, onlyFrom, keepVersions, keepNames⟩
    -- The key is asked for only in sections with keys, and an upgrade for the others has none.
    have keyed : part.keyField? ≠ none → filled? e.key = u.key ∧ u.key ≠ none := by
      intro required
      obtain ⟨text, left, there, shown, leaves⟩ := key required
      rw [shown]
      exact ⟨filled?_eq_some_iff.mpr ⟨text, there, leaves⟩, Option.some_ne_none _⟩
    have same : (part.keyField?.bind fun _ => filled? e.key) = u.key := by
      cases required : part.keyField? with
      | none => exact (noKey required).symm
      | some field => exact (keyed (by simp [required])).1
    refine ⟨fun required => (keyed required).1 ▸ (keyed required).2, u.target,
      filled?_eq_some_iff.mpr target, ?_⟩
    rw [same, filledItems_eq_iff.mpr onlyFrom, filledItems_eq_iff.mpr keepVersions,
      filledItems_eq_iff.mpr keepNames, ← kind]
  · rintro ⟨keyed, version, filled, rfl⟩
    constructor
    case kind => rfl
    case key =>
      intro required
      obtain ⟨left, filled⟩ := Option.ne_none_iff_exists'.mp (keyed required)
      obtain ⟨field, named⟩ := Option.ne_none_iff_exists'.mp required
      obtain ⟨text, there, leaves⟩ := filled?_eq_some_iff.mp filled
      exact ⟨text, left, there, by rw [named, Option.bind_some, filled], leaves⟩
    case noKey =>
      intro none
      rw [none, Option.bind_none]
    case target => exact filled?_eq_some_iff.mp filled
    case onlyFrom => exact filledItems_eq_iff.mp rfl
    case keepVersions => exact filledItems_eq_iff.mp rfl
    case keepNames => exact filledItems_eq_iff.mp rfl

/-- An entry passes the check exactly with the upgrade that it asks for. -/
theorem check_eq_ok_iff {u : Upgrade} : e.check part index = .ok u ↔ e.AsksFor part u := by
  rw [check_eq, asksFor_iff]
  cases part.keyField? <;> cases filled? e.key <;> cases filled? e.version <;> simp [eq_comm]

/-- An entry has a gap where a required field is not filled. -/
theorem hasGap_iff {field : String} :
    e.HasGap part field ↔
      (part.keyField? = some field ∧ filled? e.key = none) ∨
        (part.keyField? ≠ none → filled? e.key ≠ none) ∧ filled? e.version = none ∧
        field = "version" := by
  constructor
  · rintro (⟨required, missing⟩ | ⟨filled, missing⟩)
    · exact .inl ⟨required, filled?_eq_none_iff.mpr missing⟩
    · exact .inr ⟨fun required none => filled required (filled?_eq_none_iff.mp none),
        filled?_eq_none_iff.mpr missing, rfl⟩
  · rintro (⟨required, missing⟩ | ⟨filled, missing, rfl⟩)
    · exact .key required (filled?_eq_none_iff.mp missing)
    · exact .version (fun required none => filled required (filled?_eq_none_iff.mpr none))
        (filled?_eq_none_iff.mp missing)

/-- An entry fails the check with the first field that it has to fill and does not. -/
theorem check_eq_error_iff_hasGap {fault : BatchError} :
    e.check part index = .error fault ↔
      ∃ field, e.HasGap part field ∧ fault = .missingField part index field := by
  simp only [check_eq, hasGap_iff]
  cases part.keyField? <;> cases filled? e.key <;> cases filled? e.version <;> simp [eq_comm]

/-- An entry of `terraform` that was read names no pins to keep, since it has no field for them. -/
theorem keepNames_of_ofNode? {node : Yaml.Node} (read : ofNode? .terraform node = some e) :
    e.keepNames = [] := by
  simp only [ofNode?, BatchSection.keyField?, Option.bind_eq_bind, Option.bind_some,
    Option.bind_eq_some_iff] at read
  obtain ⟨fields, named, version, -, onlyFrom, -, keepVersions, -, keepNames, listed, same⟩ := read
  obtain rfl := Option.some.inj same
  have unknown : "ignore_names" ∉ BatchSection.terraform.fields := by decide
  have missing : ∀ node, ("ignore_names", node) ∉ fields := fun node member =>
    unknown (Yaml.Node.known_of_fields? named _ member)
  rw [Yaml.field?_of_not_mem missing] at listed
  exact (Option.some.inj listed).symm

theorem keepNames_of_someOfNode? {node : Yaml.Node} {es : List DraftEntry}
    (read : someOfNode? .terraform node = some es) : ∀ e ∈ es, e.keepNames = [] := by
  intro e member
  cases node with
  | scalar tag style text =>
    unfold someOfNode? at read
    dsimp only at read
    split at read
    case h_1 =>
      obtain rfl := Option.some.inj read
      exact absurd member List.not_mem_nil
    case h_2 => cases read
  | list tag items =>
    rw [someOfNode?] at read
    split at read
    case isTrue => cases read
    case isFalse =>
      obtain ⟨node, -, same⟩ := exists_of_mem_mapM_some read member
      exact keepNames_of_ofNode? same
  | mapping tag pairs =>
    rw [someOfNode?] at read
    split at read
    case isTrue => cases read
    case isFalse =>
      obtain ⟨only, same, rfl⟩ := Option.map_eq_some_iff.mp read
      rw [List.mem_singleton.mp member]
      exact keepNames_of_ofNode? same

end DraftEntry

/-! ### Drafts -/

/-- An entry of a batch with its section and its number in the section. -/
structure PlacedEntry where
  part : BatchSection
  index : Nat
  entry : DraftEntry

/-- The check of an entry in its place. -/
def PlacedEntry.check (x : PlacedEntry) : Except BatchError Upgrade :=
  x.entry.check x.part x.index

namespace BatchDraft

/-- The entries of all sections in a row: the modules, then the providers, then those of
`terraform`. -/
def row (d : BatchDraft) : List PlacedEntry :=
  [BatchSection.modules, .providers, .terraform].flatMap fun part =>
    (d.entries part).zipIdx.map fun (e, index) => ⟨part, index, e⟩

/-- What a draft means: a batch, or a fault. -/
inductive Means (d : BatchDraft) : Except BatchError Batch → Prop
  /-- There are entries, each asks for one upgrade, and the upgrades stand in the order of the
  entries. -/
  | batch {b : Batch} (filled : d.row ≠ [])
      (upgrades : List.Forall₂ (fun x u => x.entry.AsksFor x.part u) d.row b.upgrades)
      (files : ∀ left, b.files = some left ↔ ∃ text, d.files = some text ∧ Leaves text left)
      (addMissing : b.addMissing = d.addMissing) : Means d (.ok b)
  /-- There are no entries. -/
  | nothing (empty : ∀ part, d.entries part = []) : Means d (.error .noUpgrades)
  /-- An entry has a gap, and those in front of it have none. -/
  | gap {before after : List PlacedEntry} {x : PlacedEntry} {field : String}
      (split : d.row = before ++ x :: after) (complete : ∀ y ∈ before, ¬ y.entry.Lacks y.part)
      (gap : x.entry.HasGap x.part field) : Means d (.error (.missingField x.part x.index field))

variable {d : BatchDraft}

theorem row_eq_nil_iff : d.row = [] ↔ ∀ part, d.entries part = [] := by
  constructor
  · intro empty part
    cases part <;> simp_all [row, entries]
  · intro empty
    simp [row, empty]

/-- The check goes through the row. -/
theorem check_eq_row :
    d.check = d.row.mapM PlacedEntry.check >>= fun us =>
      if us.isEmpty then .error .noUpgrades else .ok ⟨filled? d.files, d.addMissing, us⟩ := by
  have inSection (part : BatchSection) (entries : List DraftEntry) :
      DraftEntry.checkAll part entries =
        (entries.zipIdx.map fun (e, index) =>
          PlacedEntry.mk part index e).mapM PlacedEntry.check := by
    rw [List.mapM_map]
    rfl
  unfold check row
  simp only [entries, inSection, List.flatMap_cons, List.flatMap_nil, List.append_nil,
    List.mapM_append, bind_assoc, pure_bind, List.append_assoc]
  rfl

/-- What the check says is what the draft means. -/
theorem means_check (d : BatchDraft) : d.Means d.check := by
  rw [check_eq_row]
  cases checked : d.row.mapM PlacedEntry.check with
  | error fault =>
    obtain ⟨before, x, after, split, passed, failed⟩ := mapM_eq_error_iff_first.mp checked
    obtain ⟨field, gap, rfl⟩ := DraftEntry.check_eq_error_iff_hasGap.mp failed
    -- An entry that lacks a field fails its check, but all entries in front passed theirs.
    refine .gap split (fun y member lacks => ?_) gap
    obtain ⟨u, fine⟩ := passed y member
    obtain ⟨fault, wrong⟩ := DraftEntry.check_eq_error_iff.mpr lacks
    rw [PlacedEntry.check, wrong] at fine
    cases fine
  | ok us =>
    have asked : List.Forall₂ (fun x u => x.entry.AsksFor x.part u) d.row us :=
      (mapM_eq_ok_iff.mp checked).imp fun x u passed => DraftEntry.check_eq_ok_iff.mp passed
    change d.Means (if us.isEmpty then _ else _)
    cases us with
    | nil =>
      apply Means.nothing
      exact row_eq_nil_iff.mp (List.forall₂_nil_right_iff.mp asked)
    | cons u us =>
      refine .batch ?_ asked (fun left => filled?_eq_some_iff) rfl
      intro empty
      rw [empty] at asked
      cases asked

/-- A draft means nothing but what the check says. -/
theorem check_of_means {answer : Except BatchError Batch} (means : d.Means answer) :
    d.check = answer := by
  rw [check_eq_row]
  -- The three ways to mean something are the three ways in which the check ends.
  cases means with
  | @batch b filled asked files addMissing =>
    have checked : d.row.mapM PlacedEntry.check = .ok b.upgrades :=
      mapM_eq_ok_iff.mpr (asked.imp fun x u asks => DraftEntry.check_eq_ok_iff.mpr asks)
    have some : b.upgrades.isEmpty = false := by
      cases upgrades : b.upgrades with
      | nil =>
        rw [upgrades] at asked
        exact absurd (List.forall₂_nil_right_iff.mp asked) filled
      | cons u us => rfl
    have named : filled? d.files = b.files := by
      apply Option.ext
      intro left
      exact filled?_eq_some_iff.trans (files left).symm
    rw [checked, named, ← addMissing]
    simp [bind, Except.bind, some]
  | nothing empty =>
    rw [row_eq_nil_iff.mpr empty]
    rfl
  | @gap before after x field split complete gap =>
    have failed : d.row.mapM PlacedEntry.check = .error (.missingField x.part x.index field) := by
      refine mapM_eq_error_iff_first.mpr ⟨before, x, after, split, fun y member => ?_,
        DraftEntry.check_eq_error_iff_hasGap.mpr ⟨field, gap, rfl⟩⟩
      cases passed : y.check with
      | ok u => exact ⟨u, rfl⟩
      | error fault =>
        exact absurd (DraftEntry.check_eq_error_iff.mp ⟨fault, passed⟩) (complete y member)
    rw [failed]
    rfl

/-- The check of a draft says what the draft means. -/
theorem check_eq_iff_means {answer : Except BatchError Batch} :
    d.check = answer ↔ d.Means answer := by
  constructor
  · rintro rfl
    exact means_check d
  · exact check_of_means

/-- A draft is taken exactly if it has entries and all of them are complete. -/
theorem exists_check_eq_ok_iff :
    (∃ b, d.check = .ok b) ↔
      (∃ part, d.entries part ≠ []) ∧ ∀ part, ∀ e ∈ d.entries part, ¬ e.Lacks part := by
  have refused : (∃ b, d.check = .ok b) ↔ ¬ ∃ fault, d.check = .error fault := by
    cases d.check <;> simp
  rw [refused, check_eq_error_iff, Invalid]
  push Not
  rfl

/-- Entries of `terraform` that were read name no pins to keep. -/
theorem keepNames_of_ofNode? {node : Yaml.Node} (read : ofNode? node = some d) :
    ∀ e ∈ d.terraform, e.keepNames = [] := by
  simp only [ofNode?, Option.bind_eq_bind, Option.bind_eq_some_iff] at read
  obtain ⟨fields, -, files, -, addMissing, -, modules, -, providers, -, terraform, listed, same⟩ :=
    read
  obtain rfl := Option.some.inj same
  unfold Yaml.field? at listed
  split at listed
  case h_1 node _ => exact DraftEntry.keepNames_of_someOfNode? listed
  case h_2 =>
    obtain rfl := Option.some.inj listed
    exact fun e member => absurd member List.not_mem_nil

/-- The check of a draft.

* It succeeds exactly if there is an entry and every entry has its required fields, none of them
  blank.
* Its answer is what the draft means: the upgrades of the entries in a row, each with the texts of
  its entry without the blanks at their ends; or that there are no entries; or the section, the
  number and the field of the first gap in the row.
* Entries of `terraform` that were read name no pins to keep. -/
theorem check_declares (d : BatchDraft) :
    ((∃ b, d.check = .ok b) ↔
      (∃ part, d.entries part ≠ []) ∧ ∀ part, ∀ e ∈ d.entries part, ¬ e.Lacks part) ∧
    (∀ answer, d.check = answer ↔ d.Means answer) ∧
    ∀ node, ofNode? node = some d → ∀ e ∈ d.terraform, e.keepNames = [] :=
  ⟨exists_check_eq_ok_iff, fun _ => check_eq_iff_means, fun _ read => keepNames_of_ofNode? read⟩

end BatchDraft

end TerraformPins
