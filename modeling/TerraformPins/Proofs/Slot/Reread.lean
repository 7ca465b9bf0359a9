import TerraformPins.Proofs.Hcl.Reread
import TerraformPins.Proofs.Hcl.Written
import TerraformPins.Proofs.Slot.Look

/-!
# Documents that are read between two writes

A document that was read and then written at some of its slots may be printed and read again before
the next write. Its slots look the same as without that, and the next write is read back the same.
What the tree keeps besides the text does no harm: an attribute or an entry that was added lacks
layout, but no version is added a second time where one was added, and nothing else looks at that
layout.

The values of providers are described by a predicate `P`. It is at least that a value is settled;
for the text it is also that objects without entries have line feeds as line ends.

## Main definitions

* `Structure.Ready` — a structure in a block that holds its version in an attribute
* `Document.Ready` — a document that was read and then written

## Main results

* `rereads_document` — documents that are read between two writes
-/

namespace TerraformPins

open Hcl Document

namespace Hcl

/-! ### Attributes in blocks that were read back -/

section Attributes

variable {key value : Chars} (items : List Structure)

/-- The value of an attribute after it was read back is the value, read back. -/
theorem valueOf?_asRead (key : Chars) (s : Structure) :
    s.asRead.valueOf? key = (s.valueOf? key).map Expr.asRead := by
  cases s with
  | block => rfl
  | attr layout k gap e =>
    rw [Structure.asRead, Structure.valueOf?, Structure.valueOf?]
    split <;> rfl

theorem valueAmong?_asRead (key : Chars) :
    valueAmong? key (items.map Structure.asRead) = (valueAmong? key items).map Expr.asRead := by
  induction items with
  | nil => rfl
  | cons s rest ih =>
    rw [List.map_cons, valueAmong?_cons, valueAmong?_cons, valueOf?_asRead, ih]
    cases s.valueOf? key <;> rfl

theorem isSource_asRead (s : Structure) : s.asRead.isSource = s.isSource := by
  rw [Structure.isSource, Structure.isSource, valueOf?_asRead, Option.isSome_map]

theorem asRead_withLayout (before after : Chars) (s : Structure) :
    (s.withLayout (.written before after)).asRead =
      s.asRead.withLayout (.written before after) := by
  cases s <;> rfl

/-- Exchanging an attribute and reading back can be done in either order. -/
theorem retextAttribute?_asRead :
    retextAttribute? key value (items.map Structure.asRead) =
      (retextAttribute? key value items).map (List.map Structure.asRead) := by
  induction items with
  | nil => rfl
  | cons s rest ih =>
    cases s with
    | block layout word gap labels frame inner =>
      simp only [List.map_cons, Structure.asRead, retextAttribute?, ih, Option.map_map]
      rfl
    | attr layout k gap e =>
      rw [List.map_cons, Structure.asRead, retextAttribute?, retextAttribute?]
      split
      · rfl
      · rw [ih, Option.map_map, Option.map_map]
        rfl

/-- A place among structures is found after a change that keeps what the place depends on. -/
theorem splitBehind_map {p : α → Bool} {f : α → α} (same : ∀ x, p (f x) = p x) (xs : List α) :
    splitBehind p (xs.map f) = ((splitBehind p xs).1.map f, (splitBehind p xs).2.map f) := by
  have places : (xs.map f).findIdx? p = xs.findIdx? p := by
    rw [List.findIdx?_map]
    exact congrArg (xs.findIdx? ·) (funext same)
  unfold splitBehind
  rw [places]
  cases xs.findIdx? p with
  | none => rfl
  | some i => simp

/-- A body may be spread over lines before or after it is read back. -/
theorem spread_asRead (body : Body) : body.asRead.spread = body.spread.asRead := by
  cases oneLine : body.frame.oneLine with
  | false => simp [Body.spread, Body.asRead, oneLine]
  | true => simp [Body.spread, Body.asRead, oneLine, asRead_withLayout]

end Attributes

/-! ### Structures in a block that holds its version in an attribute -/

/-- A structure prints the same, apart from its layout, after it was read back. -/
def Structure.Faithful (s : Structure) : Prop :=
  s.asRead.bareChars = s.bareChars

/-- A property of structures that lasts when they are read back or spread over lines, and that
versions have. -/
structure Lasting (Q : Structure → Prop) : Prop where
  read : ∀ {s}, Q s → Q s.asRead
  layout : ∀ {s} (layout : Layout), Q s → Q (s.withLayout layout)
  text : ∀ layout key gap place value, Q (.attr layout key gap (.mk place (.text value)))

/-- A structure in a block that holds its version in an attribute. Its layout was written, and its
value was read or exchanged for a version. -/
structure Structure.Ready (Q : Structure → Prop) (s : Structure) : Prop where
  before : s.layout.before ≠ none
  value : ∀ key e, s.valueOf? key = some e → e.node.asRead = e.node
  lasting : Q s

section Ready

variable {Q : Structure → Prop} (lasting : Lasting Q) {key value : Chars} {body : Body}
  {s : Structure}

include lasting

theorem Structure.Ready.asRead (h : s.Ready Q) : s.asRead.Ready Q where
  before := by
    rw [layout_asRead]
    exact Option.some_ne_none _
  value key e found := by
    rw [valueOf?_asRead] at found
    obtain ⟨e, -, rfl⟩ := Option.map_eq_some_iff.mp found
    exact e.node.asRead_asRead
  lasting := lasting.read h.lasting

/-- Structures stay ready when their body is spread over lines. -/
theorem Structure.Ready.spread (ready : ∀ s ∈ body.items, s.Ready Q) :
    ∀ s ∈ body.spread.items, s.Ready Q := by
  unfold Body.spread
  split
  case isFalse => exact ready
  case isTrue =>
    intro s member
    obtain ⟨t, inside, rfl⟩ := List.mem_map.mp member
    have here := ready t inside
    refine ⟨by cases t <;> exact Option.some_ne_none _, fun key e found => ?_,
      lasting.layout _ here.lasting⟩
    rw [valueOf?_withLayout] at found
    exact here.value key e found

/-- The attributes of a version. -/
theorem Structure.ready_version {layout : Layout} (before : layout.before ≠ none) (key : Chars)
    (gap : Option Chars) (place : Layout) (value : Chars) :
    (Structure.attr layout key gap (.mk place (.text value))).Ready Q := by
  refine ⟨before, fun other e found => ?_, lasting.text _ _ _ _ _⟩
  rw [Structure.valueOf?] at found
  split at found
  · obtain rfl := Option.some.inj found
    rfl
  · cases found

/-- Structures stay ready when a version is set among them. -/
theorem ready_setAttribute (ready : ∀ s ∈ body.items, s.Ready Q) (key value : Chars) :
    ∀ s ∈ (body.setAttribute key value).items, s.Ready Q := by
  cases written : retextAttribute? key value body.items with
  | none =>
    rw [setAttribute_of_none (retextAttribute?_eq_none_iff.mp written)]
    exact forall_addAttribute (Structure.Ready.spread lasting ready)
      (Structure.ready_version lasting (Option.some_ne_none _) key none {} value)
  | some changed =>
    rw [setAttribute_of_some written]
    exact forall_retextAttribute? (fun layout k gap e h =>
      Structure.ready_version lasting h.before k gap e.layout value) written ready

omit lasting

/-- An indentation is there after it was read back if what stands in front was written. -/
theorem indentation_asRead {layout : Layout} (before : layout.before ≠ none) :
    layout.asRead.indentation? = layout.indentation? := by
  obtain ⟨before', after⟩ := layout
  cases before' with
  | none => exact absurd rfl before
  | some => rfl

theorem findSome?_indentation_asRead {items : List Structure}
    (before : ∀ s ∈ items, s.layout.before ≠ none) :
    (items.map Structure.asRead).findSome? (fun s => s.layout.indentation?) =
      items.findSome? fun s => s.layout.indentation? := by
  induction items with
  | nil => rfl
  | cons s rest ih =>
    rw [List.forall_mem_cons] at before
    rw [List.map_cons, List.findSome?_cons, List.findSome?_cons, layout_asRead,
      indentation_asRead before.1, ih before.2]

/-- The added attribute is the same before and after the body was read back. -/
theorem added_asRead (lasting : Lasting Q) (ready : ∀ s ∈ body.items, s.Ready Q) :
    body.asRead.added key value = body.added key value := by
  have before := fun s member => (Structure.Ready.spread lasting ready s member).before
  rw [Body.added, Body.added, spread_asRead, Body.asRead, findSome?_indentation_asRead before]

/-- A version is written to a block in the same way before and after reading back. -/
theorem asRead_setAttribute (lasting : Lasting Q) (ready : ∀ s ∈ body.items, s.Ready Q)
    (key value : Chars) :
    (body.asRead.setAttribute key value).asRead = (body.setAttribute key value).asRead := by
  have again (items : List Structure) :
      (items.map Structure.asRead).map Structure.asRead = items.map Structure.asRead := by
    rw [List.map_map]
    exact List.map_congr_left fun s _ => s.asRead_asRead
  -- Reading back does not change whether the version is missing.
  cases written : retextAttribute? key value body.items with
  | some changed =>
    have written' : retextAttribute? key value body.asRead.items =
        some (changed.map Structure.asRead) := by
      rw [Body.asRead, retextAttribute?_asRead, written]
      rfl
    rw [setAttribute_of_some written, setAttribute_of_some written']
    exact Body.ext rfl (again changed)
  | none =>
    have written' : retextAttribute? key value body.asRead.items = none := by
      rw [Body.asRead, retextAttribute?_asRead, written]
      rfl
    rw [setAttribute_of_none (retextAttribute?_eq_none_iff.mp written),
      setAttribute_of_none (retextAttribute?_eq_none_iff.mp written')]
    refine Body.ext ?_ ?_
    · show (body.asRead.addAttribute key value).frame = (body.addAttribute key value).frame
      rw [addAttribute_frame, addAttribute_frame, spread_asRead]
      rfl
    · show (body.asRead.addAttribute key value).items.map Structure.asRead =
        (body.addAttribute key value).items.map Structure.asRead
      rw [addAttribute_items, addAttribute_items, added_asRead lasting ready, spread_asRead,
        Body.asRead, splitBehind_map isSource_asRead]
      simp only [List.map_append, List.map_cons, again]

end Ready

end Hcl

/-- What is seen at the slot of an attribute. -/
theorem look_attributeSlot (kind : PinKind) (name key : String) (word : Chars)
    (items : List Structure) : (attributeSlot kind name key word items).look =
      (.ofValue kind name key none (valueAmong? word items), none) :=
  congrArg (·, none) (site_attributeSlot kind name key word items)

/-- Values that were read say the same when they are read again. -/
theorem Site.ofValue_asRead {version : Option Expr}
    (written : ∀ e, version = some e → e.node.asRead = e.node)
    (kind : PinKind) (name key : String) (source : Option String) :
    Site.ofValue kind name key source (version.map Expr.asRead) =
      .ofValue kind name key source version := by
  cases version with
  | none => rfl
  | some e =>
    simp [Site.ofValue, Expr.plainText_asRead (written e rfl), Expr.quoted?_asRead (written e rfl)]

/-- The value of a ready structure is the same after it was read back. -/
theorem asRead_of_valueAmong? {Q : Structure → Prop} {key : Chars} {e : Expr}
    {items : List Structure} (ready : ∀ s ∈ items, s.Ready Q)
    (found : valueAmong? key items = some e) : e.node.asRead = e.node := by
  obtain ⟨s, member, here⟩ := List.exists_of_findSome?_eq_some found
  exact (ready s member).value key e here

/-- Blocks with the version in an attribute. -/
theorem rereads_attribute {kind : PinKind} {name : String} {key : List Structure → String}
    {word : Chars}
    {keeps : ∀ (body : Body) value, key (body.setAttribute word value).items = key body.items}
    {Q : Structure → Prop} (lasting : Lasting Q)
    (keyed : ∀ items : List Structure, (∀ s ∈ items, s.Ready Q) →
      key (items.map Structure.asRead) = key items) :
    (attributeShelf kind name key word keeps).Rereads Body.asRead
      fun body => ∀ s ∈ body.items, s.Ready Q where
  good_read ready s member := by
    obtain ⟨t, inside, rfl⟩ := List.mem_map.mp member
    exact (ready t inside).asRead lasting
  good_write {body} p ready := by
    simp only [attributeShelf]
    split
    · exact ready
    · exact ready_setAttribute lasting ready _ _
  looks {body} ready := by
    simp only [attributeShelf, List.map_cons, List.map_nil, look_attributeSlot, Body.asRead,
      keyed _ ready,
      valueAmong?_asRead, Site.ofValue_asRead fun e found => asRead_of_valueAmong? ready found]
  read_write {body} p ready := by
    simp only [attributeShelf]
    split
    · exact Body.ext rfl (by simp [Body.asRead, Structure.asRead_asRead])
    · exact asRead_setAttribute lasting ready _ _

/-! ### Values of providers -/

/-- A property of values of providers that lasts when they are read back or get a version. It says
at least that they are settled. -/
structure Carried (P : Expr → Prop) : Prop where
  read : ∀ {e}, P e → P e.asRead
  write : ∀ {e}, P e → ∀ value, P (e.setProviderVersion value)
  settled : ∀ {e}, P e → e.Settled

/-- If a value is an object with at most one entry and nothing behind it, the line ends there are
line feeds. -/
def Hcl.Expr.Smooth (e : Expr) : Prop :=
  ∀ c, e.node.slack? = some c → '\r' ∉ c

instance (e : Expr) : Decidable e.Smooth :=
  inferInstanceAs (Decidable (∀ c ∈ e.node.slack?, '\r' ∉ c))

theorem carried_settled : Carried Expr.Settled :=
  ⟨fun _ => Expr.settled_asRead _, fun _ => Expr.settled_setProviderVersion _, id⟩

/-- Values that are settled and smooth, as a value between two writes has to be. -/
theorem carried_smooth : Carried fun e => e.Settled ∧ e.Smooth where
  read h := ⟨Expr.settled_asRead _, fun c slack => h.2 c (Node.slack?_asRead slack)⟩
  write {e} h value := by
    refine ⟨Expr.settled_setProviderVersion e value, fun c slack => ?_⟩
    obtain ⟨layout, node⟩ := e
    cases node with
    | object entries closing => exact h.2 c (Node.slack?_setVersionEntry slack)
    | _ => cases slack
  settled h := h.1

/-- An object with a version is read back with the same version and a source that reads the same. -/
theorem Hcl.Node.asRead_of_version {entries : List Entry} {closing : Chars} {version : Expr}
    (found : valueAt? versionKey entries = some version) :
    ∃ entries' closing' version', (Node.object entries closing).asRead = .object entries' closing' ∧
      valueAt? versionKey entries' = some version' ∧ version'.node = version.node ∧
      sourceText? (valueAt? sourceKey entries') = sourceText? (valueAt? sourceKey entries) := by
  rcases Node.asRead_object_cases entries closing with same | ⟨e, rfl, same⟩
  · refine ⟨_, _, version.written (version.layout.after.getD []), same, ?_, rfl, ?_⟩
    · rw [valueAt?_map_asRead, found, Option.map_some]
    · rw [valueAt?_map_asRead, sourceText?_written]
  · rw [valueAt?_cons] at found
    split at found
    case isFalse => cases found
    case isTrue named =>
      obtain rfl := Option.some.inj found
      have other : e.keyText? ≠ some sourceKey := by
        rw [named]
        exact fun same => sourceKey_ne_versionKey (Option.some.inj same).symm
      -- The object has no entry but the version, so it has no source, whatever is read as its end.
      have only (value : Expr) (stop : Stop) :
          valueAt? versionKey [.mk e.asRead.key e.sign value stop] = some value ∧
            valueAt? sourceKey [.mk e.asRead.key e.sign value stop] = none := by
        have name : (Entry.mk e.asRead.key e.sign value stop).keyText? = e.keyText? := rfl
        rw [valueAt?_cons, valueAt?_cons, name, if_pos named, if_neg other]
        exact ⟨rfl, rfl⟩
      have before : valueAt? sourceKey [e] = none := by
        rw [valueAt?_cons, if_neg other]
        rfl
      rcases e.asReadAlone_cases closing with ⟨after, stop, rest, -, read⟩ | ⟨-, read⟩
      · exact ⟨_, _, _, same.trans read, (only _ _).1, rfl, by rw [(only _ _).2, before]⟩
      · exact ⟨_, _, _, same.trans read, (only _ _).1, rfl,
          (congrArg sourceText? (only _ _).2).trans (congrArg sourceText? before).symm⟩

/-- What is seen at the slot of a provider whose version is a quoted text. -/
theorem look_of_version {entries : List Entry} {version : Expr} {text : Chars}
    (found : valueAt? versionKey entries = some version) (quoted : version.node = .text text)
    (key : Chars) (layout : Layout) (closing : Chars) :
    (providerSlot? key (.mk layout (.object entries closing))).map Slot.look =
      some
        (⟨⟨.provider, String.ofList key, String.ofList key,
            sourceText? (valueAt? sourceKey entries), some (String.ofList text)⟩,
          some (String.ofList text)⟩, sourceText? (valueAt? sourceKey entries)) := by
  obtain ⟨place, node⟩ := version
  obtain rfl : node = .text text := quoted
  simp [providerSlot?, Slot.look, Slot.site, Slot.settled, sourceIsLast, found, Site.ofValue,
    Expr.plainText, Expr.quoted?, Expr.node]

/-- The slot of a settled value looks the same when it is read again. -/
theorem look_providerSlot?_asRead {e : Expr} (settled : e.Settled) (key : Chars) :
    (providerSlot? key e.asRead).map Slot.look = (providerSlot? key e).map Slot.look := by
  obtain ⟨layout, node⟩ := e
  rcases settled with written | ⟨entries, closing, version, text, rfl, found, node⟩
  · have same : (Expr.mk layout node).asRead =
        .mk (.written (layout.before.getD [' ']) (layout.after.getD [])) node :=
      congrArg (Expr.mk _) written
    rw [same]
    cases node <;> rfl
  · obtain ⟨entries', closing', version', read, found', same, source⟩ :=
      @Node.asRead_of_version entries closing version found
    have here : (Expr.mk layout (.object entries closing)).asRead =
        .mk (.written (layout.before.getD [' ']) (layout.after.getD []))
        (.object entries' closing') :=
      congrArg (Expr.mk _) read
    rw [here, look_of_version found' (same.trans node), look_of_version found node, source]

/-! ### The shelves of a document -/

namespace Hcl.Structure

/-- What was read back is read back as it is. -/
theorem faithful_asRead (s : Structure) : s.asRead.Faithful :=
  congrArg bareChars s.asRead_asRead

theorem Stable.faithful {s : Structure} (h : s.Stable) : s.Faithful :=
  congrArg bareChars h.written

/-- A structure that was read is ready. -/
theorem Stable.ready {Q : Structure → Prop} {s : Structure} (h : s.Stable) (lasting : Q s) :
    s.Ready Q where
  before := by
    have layout := layout_asRead s
    rw [h.written] at layout
    rw [layout]
    exact Option.some_ne_none _
  value key e found := by
    have read := valueOf?_asRead key s
    rw [h.written, found] at read
    exact (congrArg Expr.node (Option.some.inj read)).symm
  lasting := lasting

/-- A structure that prints the same without its layout prints the same with it. -/
theorem Faithful.chars {s : Structure} (h : s.Faithful) : s.asRead.chars = s.chars := by
  rw [chars_eq, chars_eq, h, layout_asRead]
  rfl

theorem lasting_faithful : Lasting Faithful where
  read _ := faithful_asRead _
  layout {s} layout h := by
    cases s <;> exact h
  text _ _ _ _ _ := rfl

/-- An entry of a `required_providers` block. -/
def Provided (P : Expr → Prop) : Structure → Prop
  | .attr _ _ _ value => P value
  | s => s.Faithful

/-- A structure in a `terraform` block. -/
def Nested (P : Expr → Prop) : Structure → Prop
  | s@(.block _ word _ _ _ items) =>
    if word = requiredProvidersWord then ∀ t ∈ items, t.Provided P else s.Faithful
  | s => s.Faithful

/-- A structure on the top level. -/
def Upper (P : Expr → Prop) : Structure → Prop
  | s@(.block _ word _ _ _ items) =>
    if word = moduleWord then ∀ t ∈ items, t.Ready Faithful
    else if word = terraformWord then ∀ t ∈ items, t.Ready (Nested P)
    else s.Faithful
  | s => s.Faithful

end Hcl.Structure

section Shelves

variable {P : Expr → Prop} (carried : Carried P)

include carried

/-- A version may be written to a provider before or after it is read back. -/
theorem rereads_provider : providerShelf.Rereads Structure.asRead (Structure.Provided P) where
  good_read {s} h := by
    cases s with
    | block => exact Structure.faithful_asRead _
    | attr => exact carried.read h
  good_write {s} p h := by
    cases s with
    | block => exact h
    | attr layout key gap value =>
      simp only [providerShelf, writeProvider]
      split
      · exact h
      · split
        · exact carried.write h _
        · exact h
  looks {s} h := by
    cases s with
    | block => rfl
    | attr layout key gap value =>
      have look := look_providerSlot?_asRead (carried.settled h) key
      simp only [providerShelf, Structure.asRead, ← Option.toList_map, look]
  read_write {s} p h := by
    cases s with
    | block =>
      simp only [providerShelf, Structure.asRead, asReadItems_asReadItems, Layout.asRead_asRead]
    | attr layout key gap value =>
      have settled := carried.settled h
      have sites := congrArg Option.isSome (look_providerSlot?_asRead settled key)
      rw [Option.isSome_map, Option.isSome_map] at sites
      -- Whether there is a slot is the same before and after reading, so both sides write or
      -- neither.
      have value : (writeProvider key value.asRead (p 0)).asRead =
          (writeProvider key value (p 0)).asRead := by
        unfold writeProvider
        split
        · exact value.asRead_asRead
        · rw [sites]
          split
          · exact Expr.asRead_setProviderVersion settled _
          · exact value.asRead_asRead
      simp only [providerShelf, Structure.asRead, value]
      rfl

/-- A property of nested structures lasts if it is made from one of values that lasts. -/
theorem lasting_nested : Lasting (Structure.Nested P) where
  read {s} h := by
    cases s with
    | attr => exact Structure.faithful_asRead _
    | block layout word gap labels frame items =>
      rw [Structure.Nested] at h
      rw [Structure.asRead, Structure.Nested]
      -- A block of required providers is read back entry by entry, and any other one as a whole.
      split at h
      case isTrue named =>
        rw [if_pos named, asReadItems_eq]
        exact (rereads_provider carried).list.good_read h
      case isFalse other =>
        rw [if_neg other, ← Structure.asRead]
        exact Structure.faithful_asRead _
  layout {s} layout h := by
    cases s with
    | attr => exact Structure.lasting_faithful.layout _ h
    | block layout word gap labels frame items =>
      rw [Structure.Nested] at h
      rw [Structure.withLayout, Structure.Nested]
      split at h
      case isTrue named => rwa [if_pos named]
      case isFalse other =>
        rw [if_neg other]
        exact Structure.lasting_faithful.layout _ h
  text _ _ _ _ _ := rfl

/-- A nested block of providers may be read back between two writes to it. -/
theorem rereads_nested : nestedShelf.Rereads Structure.asRead fun s =>
    s.Ready (Structure.Nested P) := by
  -- A block of required providers stays ready, because a version that is written to it is
  -- `Carried`.
  refine .within (List.map Structure.asRead) (fun h => h.asRead (lasting_nested carried))
    Structure.asRead_asRead (fun s => ?_) (fun s => ?_) (fun items s => ?_)
    (fun {s T} ready picked => ?_)
  · cases s <;> rfl
  · cases s with
    | attr => rfl
    | block => exact asReadItems_eq _
  · cases s with
    | attr => rfl
    | block => simp only [Structure.withInner, Structure.asRead, asReadItems_eq]
  · cases s with
    | attr => cases picked
    | block layout word gap labels frame items =>
      have nested := ready.lasting
      rw [Structure.Nested] at nested
      dsimp only at picked
      split at picked
      case isFalse => cases picked
      case isTrue named =>
        obtain rfl := Option.some.inj picked
        rw [if_pos named] at nested
        refine ⟨_, (rereads_provider carried).list, nested, fun items' each =>
          ⟨ready.before, ?_, ?_⟩⟩
        · exact fun key e found => absurd found (Option.some_ne_none e).symm
        · rw [Structure.withInner, Structure.Nested, if_pos named]
          exact each

theorem rereads_nestedBody :
    nestedBodyShelf.Rereads Body.asRead fun body =>
      ∀ s ∈ body.items, s.Ready (Structure.Nested P) := by
  have items := (rereads_nested carried).list
  refine .within (List.map Structure.asRead) (fun ready => items.good_read ready) (fun body => ?_)
    (fun _ => rfl) (fun _ => rfl) (fun _ _ => rfl) fun ready picked => ?_
  · exact Body.ext rfl (by simp [Body.asRead, Structure.asRead_asRead])
  · obtain rfl := Option.some.inj picked
    exact ⟨_, items, ready, fun _ => id⟩

/-- A `terraform` block may be read back between two writes to it. -/
theorem rereads_terraform :
    terraformShelf.Rereads Body.asRead fun body => ∀ s ∈ body.items, s.Ready (Structure.Nested P) :=
  .both (rereads_attribute (lasting_nested carried) fun _ _ => rfl) (rereads_nestedBody carried)

omit carried

/-- A module may be read back between two writes to it. -/
theorem rereads_module (labels : List Label) :
    (moduleShelf labels).Rereads Body.asRead
      fun body => ∀ s ∈ body.items, s.Ready Structure.Faithful := by
  refine rereads_attribute Structure.lasting_faithful fun items ready => ?_
  rw [valueAmong?_asRead]
  cases found : valueAmong? sourceKey items with
  | none => rfl
  | some e => simp [Expr.plainText_asRead (asRead_of_valueAmong? ready found)]

/-- A structure on the top level keeps what is asked of it when it is read back. -/
theorem Hcl.Structure.Upper.asRead (carried : Carried P) {s : Structure} (h : s.Upper P) :
    s.asRead.Upper P := by
  cases s with
  | attr => exact Structure.faithful_asRead _
  | block layout word gap labels frame items =>
    rw [Structure.Upper] at h
    rw [Structure.asRead, Structure.Upper, asReadItems_eq]
    split at h
    case isTrue named =>
      rw [if_pos named]
      exact (rereads_module labels).good_read (x := ⟨frame, items⟩) h
    case isFalse notModule =>
      rw [if_neg notModule]
      split at h
      case isTrue named =>
        rw [if_pos named]
        exact (rereads_terraform carried).good_read (x := ⟨frame, items⟩) h
      case isFalse other =>
        rw [if_neg other, ← asReadItems_eq, ← Structure.asRead]
        exact Structure.faithful_asRead _

/-- A structure on the top level may be read back between two writes to it, whatever it is. -/
theorem rereads_structure (carried : Carried P) :
    structureShelf.Rereads Structure.asRead (Structure.Upper P) := by
  refine .within Body.asRead (fun h => h.asRead carried) Structure.asRead_asRead (fun s => ?_)
    (fun s => ?_) (fun items s => ?_) (fun {s T} h picked => ?_)
  · cases s <;> rfl
  · cases s with
    | attr => rfl
    | block => exact Body.ext rfl (asReadItems_eq _)
  · cases s with
    | attr => rfl
    | block => simp only [Structure.withBody, Structure.asRead, asReadItems_eq, Body.asRead]
  · cases s with
    | attr => cases picked
    | block layout word gap labels frame items =>
      -- A block has slots if it is a module or `terraform`, and each kind is read back in its own
      -- way.
      rw [Structure.Upper] at h
      dsimp only at picked
      split at picked
      case isTrue named =>
        obtain rfl := Option.some.inj picked
        rw [if_pos named] at h
        refine ⟨_, rereads_module labels, h, fun body ready => ?_⟩
        rw [Structure.withBody, Structure.Upper, if_pos named]
        exact ready
      case isFalse notModule =>
        split at picked
        case isFalse => cases picked
        case isTrue named =>
          obtain rfl := Option.some.inj picked
          rw [if_neg notModule, if_pos named] at h
          refine ⟨_, rereads_terraform carried, h, fun body ready => ?_⟩
          rw [Structure.withBody, Structure.Upper, if_neg notModule, if_pos named]
          exact ready

/-- A document may be read back between two writes to it. -/
theorem rereads_document (carried : Carried P) :
    documentShelf.Rereads Document.asRead fun d => ∀ s ∈ d.body.items, s.Upper P := by
  have items := (rereads_structure carried).list
  refine .within (List.map Structure.asRead) (fun ready => items.good_read ready) (fun d => ?_)
    (fun _ => rfl) (fun _ => rfl) (fun _ _ => rfl) fun ready picked => ?_
  · exact congrArg Document.mk
      (Body.ext rfl (by simp [Document.asRead, Body.asRead, Structure.asRead_asRead]))
  · obtain rfl := Option.some.inj picked
    exact ⟨_, items, ready, fun _ => id⟩

end Shelves

/-! ### The text -/

namespace Hcl

theorem rowChars_asRead {items : List Structure} (each : ∀ s ∈ items, s.Faithful) :
    rowChars (items.map Structure.asRead) = rowChars items := by
  induction items with
  | nil => rfl
  | cons s rest ih =>
    rw [List.forall_mem_cons] at each
    rw [List.map_cons, rowChars, rowChars, each.1.chars, ih each.2]

/-- Lines of structures that print the same print the same. -/
theorem linesChars_asRead {items : List Structure} (each : ∀ s ∈ items, s.Faithful)
    (lastLineEnds : Bool) :
    linesChars lastLineEnds (items.map Structure.asRead) = linesChars lastLineEnds items := by
  induction items with
  | nil => rfl
  | cons s rest ih =>
    rw [List.forall_mem_cons] at each
    rw [List.map_cons, linesChars, linesChars, each.1.chars, ih each.2, List.isEmpty_map]

namespace Structure

/-- An attribute prints the same after it was read back if its value does. -/
theorem faithful_attr {value : Expr} (same : value.node.asRead.chars = value.node.chars)
    (layout : Layout) (key : Chars) (gap : Option Chars) :
    (attr layout key gap value).Faithful := by
  obtain ⟨⟨before, after⟩, node⟩ := value
  have printed : (Expr.mk ⟨before, after⟩ node).asRead.chars [' '] =
      (Expr.mk ⟨before, after⟩ node).chars [' '] :=
    congrArg (fun cs => before.getD [' '] ++ cs ++ after.getD []) same
  unfold Faithful
  rw [asRead, bareChars, bareChars, printed]
  rfl

/-- A block prints the same after it was read back if its structures do. -/
theorem faithful_block {items : List Structure} (each : ∀ s ∈ items, s.Faithful) (layout : Layout)
    (word gap : Chars) (labels : List Label) (frame : Frame) :
    (block layout word gap labels frame items).Faithful := by
  unfold Faithful
  rw [asRead, bareChars, bareChars, asReadItems_eq, Body.innerChars, Body.innerChars]
  dsimp only
  rw [rowChars_asRead each, linesChars_asRead each]

variable {P : Expr → Prop} (prints : ∀ e, P e → e.node.asRead.chars = e.node.chars)

include prints

theorem Provided.faithful {s : Structure} (h : s.Provided P) : s.Faithful := by
  cases s with
  | block => exact h
  | attr => exact faithful_attr (prints _ h) _ _ _

theorem Nested.faithful {s : Structure} (h : s.Nested P) : s.Faithful := by
  cases s with
  | attr => exact h
  | block =>
    rw [Nested] at h
    split at h
    · exact faithful_block (fun t member => (h t member).faithful prints) _ _ _ _ _
    · exact h

theorem Upper.faithful {s : Structure} (h : s.Upper P) : s.Faithful := by
  cases s with
  | attr => exact h
  | block =>
    rw [Upper] at h
    split at h
    · exact faithful_block (fun t member => (h t member).lasting) _ _ _ _ _
    · split at h
      · exact faithful_block (fun t member => (h t member).lasting.faithful prints) _ _ _ _ _
      · exact h

end Structure

end Hcl

/-! ### Documents -/

namespace Document

/-- The values of the providers in a block with settings of `terraform`. -/
def nestedProviders : Structure → List Expr
  | .block _ word _ _ _ items =>
    if word = requiredProvidersWord then
      items.filterMap fun
        | .attr _ _ _ value => some value
        | .block .. => none
    else []
  | .attr .. => []

/-- The values of the providers of a document. -/
def providers (d : Document) : List Expr :=
  d.body.items.flatMap fun
    | .block _ word _ _ _ items =>
      if word = terraformWord then items.flatMap nestedProviders else []
    | .attr .. => []

/-- The values of the providers in a structure on the top level. -/
def structureProviders : Structure → List Expr
  | .block _ word _ _ _ items => if word = terraformWord then items.flatMap nestedProviders else []
  | .attr .. => []

theorem providers_eq (d : Document) : d.providers = d.body.items.flatMap structureProviders := rfl

/-- The value of a provider stands in an attribute of a nested block. -/
theorem exists_of_mem_structureProviders {s : Structure} {e : Expr}
    (member : e ∈ structureProviders s) :
    ∃ t ∈ s.inner, ∃ layout key gap, Structure.attr layout key gap e ∈ t.inner := by
  cases s with
  | attr => cases member
  | block _ word _ _ _ items =>
    rw [structureProviders] at member
    split at member
    case isFalse => cases member
    case isTrue =>
      obtain ⟨t, within, inside⟩ := List.mem_flatMap.mp member
      cases t with
      | attr => cases inside
      | block _ word _ _ _ entries =>
        rw [nestedProviders] at inside
        split at inside
        case isFalse => cases inside
        case isTrue =>
          obtain ⟨u, last, found⟩ := List.mem_filterMap.mp inside
          cases u with
          | block => cases found
          | attr =>
            obtain rfl := Option.some.inj found
            exact ⟨_, within, _, _, _, last⟩

/-- The values of providers in a structure that is read back as it is are settled. -/
theorem settled_structureProviders {s : Structure} (stable : s.Stable) :
    ∀ e ∈ structureProviders s, e.Settled := by
  intro e member
  obtain ⟨t, within, layout, key, gap, last⟩ := exists_of_mem_structureProviders member
  have written := ((stable.inner t within).inner _ last).written
  simp only [Structure.asRead, Structure.attr.injEq] at written
  exact .inl (congrArg Expr.node written.2.2.2)

/-- A document that was read and then written. -/
def Ready (P : Expr → Prop) (d : Document) : Prop :=
  ∀ s ∈ d.body.items, s.Upper P

variable {d : Document} {P : Expr → Prop}

/-- The values of all providers of a stable document are settled. -/
theorem Stable.settled_providers (h : d.Stable) (whole : d.Whole) :
    ∀ e ∈ d.providers, e.Settled := by
  intro e member
  rw [providers_eq] at member
  obtain ⟨s, here, inside⟩ := List.mem_flatMap.mp member
  exact settled_structureProviders (h.structures whole s here) e inside

/-- A structure that is read back as it is can be written. -/
theorem upper_of_stable {s : Structure} (stable : s.Stable)
    (each : ∀ e ∈ structureProviders s, P e) : s.Upper P := by
  cases s with
  | attr => exact stable.faithful
  | block layout word gap labels frame items =>
    rw [Structure.Upper]
    split
    case isTrue =>
      intro t inside
      exact (stable.inner t inside).ready (stable.inner t inside).faithful
    case isFalse =>
      split
      case isFalse => exact stable.faithful
      case isTrue isTerraform =>
        intro t inside
        have within := stable.inner t inside
        refine within.ready ?_
        cases t with
        | attr => exact within.faithful
        | block _ word _ _ _ entries =>
          rw [Structure.Nested]
          split
          case isFalse => exact within.faithful
          case isTrue isRequired =>
            intro u last
            cases u with
            | block => exact (within.inner _ last).faithful
            | attr _ _ _ value =>
              -- The value of a provider is one of the values that the property is known of.
              refine each value ?_
              rw [structureProviders, if_pos isTerraform]
              refine List.mem_flatMap.mpr ⟨_, inside, ?_⟩
              rw [nestedProviders, if_pos isRequired]
              exact List.mem_filterMap.mpr ⟨_, last, rfl⟩

/-- A document that was read is ready. -/
theorem Stable.ready (h : d.Stable) (whole : d.Whole) (each : ∀ e ∈ d.providers, P e) :
    d.Ready P := by
  intro s member
  refine upper_of_stable (h.structures whole s member) fun e inside => each e ?_
  rw [providers_eq]
  exact List.mem_flatMap.mpr ⟨s, member, inside⟩

/-- What is read back prints the same text. -/
theorem Ready.text_asRead (h : d.Ready P) (prints : ∀ e, P e → e.node.asRead.chars = e.node.chars) :
    d.asRead.text = d.text := by
  have each := fun s member => (h s member).faithful prints
  show String.ofList (Body.chars d.body.asRead) = String.ofList d.body.chars
  rw [Body.chars, Body.chars, Body.asRead, linesChars_asRead each]

end Document

end TerraformPins
