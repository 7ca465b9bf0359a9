import TerraformPins.Proofs.Hcl.Entries
import TerraformPins.Proofs.Hcl.Stable
import TerraformPins.Proofs.Slot.Document

/-!
# Documents with versions written

A document that is read from its own text stays readable when versions are written to its slots. A
version that is there is exchanged for a quoted string. An attribute that is added stands on a line
of its own, between lines that are read wherever they stand, and its key is new among them. An
object gets its version as its text is.

## Main definitions

* `Structure.Stable` — a structure that is read back as it is

## Main results

* `Structure.Readable.setAttribute` — a block with an attribute written
* `Document.readable_write` — a document with versions written
-/

namespace TerraformPins

open Hcl Document Scan Grammar Reader

namespace Hcl

/-! ### Distinct keys -/

/-- The check of a body passes if no key of an attribute is there twice. -/
theorem distinctKeys_iff_nodup (items : List Structure) :
    distinctKeys items = true ↔ (attributeKeys items).Nodup := by
  rw [distinctKeys_iff, length_eraseDups_iff]

theorem attributeKeys_append (items more : List Structure) :
    attributeKeys (items ++ more) = attributeKeys items ++ attributeKeys more := by
  simp [attributeKeys]

theorem attributeKeys_cons (s : Structure) (items : List Structure) :
    attributeKeys (s :: items) = attributeKeys [s] ++ attributeKeys items :=
  attributeKeys_append [s] items

/-- A key among those of the attributes has a value. -/
theorem mem_attributeKeys {key : Chars} {items : List Structure}
    (member : key ∈ attributeKeys items) : valueAmong? key items ≠ none := by
  induction items with
  | nil => cases member
  | cons s rest ih =>
    rw [attributeKeys_cons, List.mem_append] at member
    rw [valueAmong?_cons]
    cases s with
    | block => simpa [Structure.valueOf?] using ih (member.resolve_left (by simp [attributeKeys]))
    | attr layout k gap value =>
      rw [Structure.valueOf?]
      split
      case isTrue => simp
      case isFalse differs =>
        have here : key ∉ attributeKeys [Structure.attr layout k gap value] := by
          simpa [attributeKeys] using Ne.symm differs
        simpa using ih (member.resolve_left here)

/-- Exchanging a value changes no key. -/
theorem attributeKeys_retextAttribute? {key value : Chars} {items changed : List Structure}
    (written : retextAttribute? key value items = some changed) :
    attributeKeys changed = attributeKeys items := by
  induction items generalizing changed with
  | nil => cases written
  | cons s rest ih =>
    cases s with
    | block =>
      obtain ⟨rest', inner, rfl⟩ := Option.map_eq_some_iff.mp written
      rw [attributeKeys_cons, attributeKeys_cons _ rest, ih inner]
    | attr layout k gap e =>
      rw [retextAttribute?] at written
      split at written
      case isTrue =>
        obtain rfl := Option.some.inj written
        rfl
      case isFalse =>
        obtain ⟨rest', inner, rfl⟩ := Option.map_eq_some_iff.mp written
        rw [attributeKeys_cons, attributeKeys_cons _ rest, ih inner]

/-! ### Attributes of a block -/

/-- An expression stays readable when a version takes the place of its value. -/
theorem Expr.Readable.retext {e : Expr} (h : e.Readable) (value : Chars) :
    (e.retext value).Readable :=
  ⟨h.before, h.after, Node.reads_text value⟩

/-- Exchanging a value moves nothing. -/
theorem layouts_retextAttribute? {key value : Chars} {items changed : List Structure}
    (written : retextAttribute? key value items = some changed) :
    changed.map Structure.layout = items.map Structure.layout := by
  induction items generalizing changed with
  | nil => cases written
  | cons s rest ih =>
    cases s with
    | block =>
      obtain ⟨rest', inner, rfl⟩ := Option.map_eq_some_iff.mp written
      rw [List.map_cons, List.map_cons, ih inner]
    | attr layout k gap e =>
      rw [retextAttribute?] at written
      split at written
      case isTrue =>
        obtain rfl := Option.some.inj written
        rfl
      case isFalse =>
        obtain ⟨rest', inner, rfl⟩ := Option.map_eq_some_iff.mp written
        rw [List.map_cons, List.map_cons, ih inner]

/-- Structures in the same layouts are placed alike. -/
theorem placed_of_layouts {items changed : List Structure}
    (same : changed.map Structure.layout = items.map Structure.layout)
    (placed : ∀ s ∈ items, s.Placed) : ∀ s ∈ changed, s.Placed := by
  intro s member
  have inside : s.layout ∈ items.map Structure.layout := same ▸ List.mem_map_of_mem member
  obtain ⟨t, here, layout⟩ := List.mem_map.mp inside
  obtain ⟨before, after⟩ := placed t here
  rw [layout] at before after
  exact ⟨before, after⟩

/-- Structures stay readable when a value is exchanged. -/
theorem readable_retextAttribute? {key value : Chars} {items changed : List Structure}
    (written : retextAttribute? key value items = some changed)
    (readable : ∀ s ∈ items, s.Readable) : ∀ s ∈ changed, s.Readable := by
  refine forall_retextAttribute? (fun layout k gap e h => ?_) written readable
  obtain ⟨named, filled, valued⟩ := h
  exact .attr named filled (valued.retext value)

section Blocks

variable {layout : Layout} {word gap : Chars} {labels : List Label} {frame : Frame}
  {items : List Structure}

/-- A block spread over lines. -/
theorem Structure.Readable.spread
    (h : (Structure.block layout word gap labels frame items).Readable) :
    ∃ opening closing, (Body.spread ⟨frame, items⟩).frame = ⟨opening, closing, false, true⟩ ∧
      Heads word gap labels ∧ Trails opening ∧ Blank.Fills true closing ∧
      distinctKeys (Body.spread ⟨frame, items⟩).items = true ∧
      (∀ s ∈ (Body.spread ⟨frame, items⟩).items, s.Placed) ∧
      ∀ s ∈ (Body.spread ⟨frame, items⟩).items, s.Readable := by
  cases h with
  | lines heads opened closed distinct placed readable =>
    exact ⟨_, _, rfl, heads, opened, closed, distinct, placed, readable⟩
  | @row _ inner _ _ key _ g value heads _ _ readable =>
    -- The attribute moves to a line of its own and is indented there.
    refine ⟨[], [], rfl, heads, trails_nil, Blank.fills_nil true, rfl, ?_, ?_⟩
    · intro s member
      obtain rfl := List.mem_singleton.mp member
      exact ⟨Blank.fills_of_spaces (by simp [Structure.withLayout, Structure.layout, Layout.written,
        standardIndent, Blank.isSpace]), trails_nil⟩
    · intro s member
      obtain rfl := List.mem_singleton.mp member
      obtain ⟨named, filled, valued⟩ := readable
      exact .attr named filled valued
  | empty heads closed =>
    exact ⟨[], _, rfl, heads, trails_nil, closed.across, rfl,
      fun s member => absurd member List.not_mem_nil,
      fun s member => absurd member List.not_mem_nil⟩

/-- The indentation of what is added to a block. -/
theorem fills_added {items : List Structure}
    (placed : ∀ s ∈ items, Blank.Fills true (s.layout.before.getD [])) :
    Blank.Fills true ((items.findSome? fun s => s.layout.indentation?).getD standardIndent) := by
  refine Blank.fills_of_spaces ?_
  cases found : items.findSome? fun s => s.layout.indentation? with
  | none => simp [standardIndent, Blank.isSpace]
  | some line =>
    obtain ⟨s, member, here⟩ := List.exists_of_findSome?_eq_some found
    exact isSpace_of_indentation (placed s member) here

/-- A block with an attribute added. -/
theorem Structure.Readable.addAttribute
    (h : (Structure.block layout word gap labels frame items).Readable) {key : Chars}
    (named : Named key) (missing : valueAmong? key items = none) (value : Chars) :
    (Structure.block layout word gap labels (Body.addAttribute ⟨frame, items⟩ key value).frame
      (Body.addAttribute ⟨frame, items⟩ key value).items).Readable := by
  obtain ⟨opening, closing, shape, heads, opened, closed, distinct, placed, readable⟩ := h.spread
  have space : Blank.Fills false [' '] := Blank.fills_of_spaces (by simp [Blank.isSpace])
  have new : key ∉ attributeKeys (Body.spread ⟨frame, items⟩).items := by
    intro member
    refine mem_attributeKeys member ?_
    rw [valueAmong?_spread]
    exact missing
  rw [addAttribute_frame, shape]
  refine .lines heads opened closed ?_
    (forall_addAttribute placed ⟨fills_added fun s member => (placed s member).before, trails_nil⟩)
    (forall_addAttribute readable (.attr named space ⟨space, rfl, Node.reads_text value⟩))
  have keys : attributeKeys [Body.added ⟨frame, items⟩ key value] = [key] := rfl
  rw [distinctKeys_iff_nodup] at distinct ⊢
  rw [← splitBehind_append Structure.isSource (Body.spread ⟨frame, items⟩).items,
    attributeKeys_append] at distinct new
  rw [addAttribute_items, attributeKeys_append, attributeKeys_cons, keys]
  exact (List.perm_middle.nodup_iff).mpr (List.nodup_cons.mpr ⟨new, distinct⟩)

/-- A block with an attribute written. -/
theorem Structure.Readable.setAttribute
    (h : (Structure.block layout word gap labels frame items).Readable) {key : Chars}
    (named : Named key) (value : Chars) :
    (Structure.block layout word gap labels (Body.setAttribute ⟨frame, items⟩ key value).frame
      (Body.setAttribute ⟨frame, items⟩ key value).items).Readable := by
  -- A version that is there is exchanged in its place, and a new one is a line of its own.
  cases written : retextAttribute? key value items with
  | none =>
    have missing := retextAttribute?_eq_none_iff.mp written
    rw [setAttribute_of_none missing]
    exact h.addAttribute named missing value
  | some changed =>
    rw [@setAttribute_of_some _ _ _ ⟨frame, items⟩ written]
    cases h with
    | lines heads opened closed distinct placed readable =>
      refine .lines heads opened closed ?_
        (placed_of_layouts (layouts_retextAttribute? written) placed)
        (readable_retextAttribute? written readable)
      rw [distinctKeys_iff, attributeKeys_retextAttribute? written, ← distinctKeys_iff]
      exact distinct
    | row heads before after readable =>
      obtain ⟨named, filled, valued⟩ := readable
      rw [retextAttribute?] at written
      split at written
      case isTrue =>
        obtain rfl := Option.some.inj written
        exact .row heads before after (.attr named filled (valued.retext value))
      case isFalse => cases written
    | empty => cases written

end Blocks

/-! ### Structures that are read back as they are -/

/-- A structure that is read back as it is. -/
structure Structure.Stable (s : Structure) : Prop where
  readable : s.Readable
  written : s.asRead = s
  whole : s.Whole

/-- What is in a block that is read back as it is is so, too. -/
theorem Structure.Stable.inner {s : Structure} (h : s.Stable) : ∀ t ∈ s.inner, t.Stable := by
  obtain ⟨readable, written, whole⟩ := h
  cases s with
  | attr => exact fun t member => absurd member List.not_mem_nil
  | block layout word gap labels frame items =>
    intro t member
    have each : ∀ u ∈ items, u.Readable := by
      cases readable with
      | lines _ _ _ _ _ each => exact each
      | row _ _ _ inner => exact fun u here => List.mem_singleton.mp here ▸ inner
      | empty => exact fun t member => absurd member List.not_mem_nil
    simp only [asRead, Structure.block.injEq, asReadItems_eq] at written
    have same : items.map asRead = items.map id := written.2.2.2.2.2.trans (List.map_id items).symm
    exact ⟨each t member, List.map_inj_left.mp same t member, wholeStructures_iff.mp whole t member⟩

/-- The value of a provider with its version written. -/
theorem Expr.Readable.setProviderVersion {e : Expr} (h : e.Readable)
    (written : e.node.asRead = e.node) (whole : e.node.Whole) (value : Chars) :
    (e.setProviderVersion value).Readable := by
  obtain ⟨layout, node⟩ := e
  obtain ⟨before, after, reads⟩ := h
  rw [written] at reads
  cases node with
  | object entries closing => exact ⟨before, after, Node.reads_setVersionEntry reads whole value⟩
  | _ => exact ⟨before, after, Node.reads_text value⟩

end Hcl

/-- Writes keep the layouts of structures and the keys of attributes. -/
def Shelf.Keeps (S : Shelf Structure) : Prop :=
  ∀ p s, (S.write p s).layout = s.layout ∧ attributeKeys [S.write p s] = attributeKeys [s]

namespace Shelf

variable {S : Shelf Structure}

/-- What is written to a list is written to its members. -/
theorem mem_writeList {p : Writes} {items : List Structure} {s : Structure}
    (member : s ∈ S.writeList p items) : ∃ q, ∃ t ∈ items, s = S.write q t := by
  induction items generalizing p with
  | nil => cases member
  | cons t rest ih =>
    rcases List.mem_cons.mp member with rfl | inside
    · exact ⟨p, t, List.mem_cons_self, rfl⟩
    · obtain ⟨q, u, here, rfl⟩ := ih inside
      exact ⟨q, u, List.mem_cons_of_mem t here, rfl⟩

/-- A write that keeps places keeps those of all members. -/
theorem Keeps.layouts (h : S.Keeps) (p : Writes) (items : List Structure) :
    (S.writeList p items).map Structure.layout = items.map Structure.layout := by
  induction items generalizing p with
  | nil => rfl
  | cons s rest ih => rw [writeList, List.map_cons, List.map_cons, ih, (h p s).1]

theorem Keeps.keys (h : S.Keeps) (p : Writes) (items : List Structure) :
    attributeKeys (S.writeList p items) = attributeKeys items := by
  induction items generalizing p with
  | nil => rfl
  | cons s rest ih => rw [writeList, attributeKeys_cons, attributeKeys_cons s, ih, (h p s).2]

/-- A block with the structures in it written. -/
theorem Keeps.readable (keeps : S.Keeps) {layout : Layout} {word gap : Chars} {labels : List Label}
    {frame : Frame} {items : List Structure}
    (h : (Structure.block layout word gap labels frame items).Readable)
    (each : ∀ q, ∀ s ∈ items, (S.write q s).Readable) (p : Writes) :
    (Structure.block layout word gap labels frame (S.writeList p items)).Readable := by
  have inner : ∀ s ∈ S.writeList p items, s.Readable := by
    intro s member
    obtain ⟨q, t, inside, rfl⟩ := mem_writeList member
    exact each q t inside
  cases h with
  | lines heads opened closed distinct placed =>
    refine .lines heads opened closed ?_ (placed_of_layouts (keeps.layouts p items) placed) inner
    rw [distinctKeys_iff, keeps.keys, ← distinctKeys_iff]
    exact distinct
  | @row _ around _ _ key _ g value heads before after readable =>
    obtain ⟨sameLayout, sameKey⟩ := keeps p (.attr around key g value)
    have written := inner (S.write p (.attr around key g value)) List.mem_cons_self
    rw [writeList, writeList_nil]
    -- A write makes no block of an attribute, since it keeps the key.
    cases shape : S.write p (.attr around key g value) with
    | block =>
      rw [shape] at sameKey
      cases sameKey
    | attr around' key' g' value' =>
      rw [shape] at sameLayout written
      obtain rfl : around' = around := sameLayout
      exact .row heads before after written
  | empty heads closed => exact .empty heads closed

end Shelf

theorem keeps_provider : providerShelf.Keeps := by
  intro p s
  cases s <;> exact ⟨rfl, rfl⟩

theorem keeps_nested : nestedShelf.Keeps := by
  intro p s
  refine ⟨layout_write_nested p s, ?_⟩
  cases s with
  | attr => rfl
  | block =>
    simp only [nestedShelf, Shelf.within]
    split <;> rfl

theorem keeps_structure : structureShelf.Keeps := by
  intro p s
  cases s with
  | attr => exact ⟨rfl, rfl⟩
  | block =>
    simp only [structureShelf, Shelf.within]
    split <;> exact ⟨rfl, rfl⟩

/-- An entry of a `required_providers` block with its version written. -/
theorem readable_write_provider {s : Structure} (h : s.Stable) (p : Writes) :
    (providerShelf.write p s).Readable := by
  cases s with
  | block => exact h.readable
  | attr layout key gap value =>
    obtain ⟨readable, written, whole⟩ := h
    simp only [providerShelf]
    obtain ⟨named, filled, valued⟩ := readable
    refine .attr named filled ?_
    unfold writeProvider
    split
    · exact valued
    · split
      · simp only [Structure.asRead, Structure.attr.injEq] at written
        obtain ⟨layout', node⟩ := value
        have same : node.asRead = node := (Expr.mk.inj written.2.2.2).2
        exact valued.setProviderVersion same whole _
      · exact valued

/-- A block in a `terraform` block with the versions of the providers in it written. -/
theorem readable_write_nested {s : Structure} (h : s.Stable) (p : Writes) :
    (nestedShelf.write p s).Readable := by
  cases s with
  | attr => exact h.readable
  | block layout word gap labels frame items =>
    simp only [nestedShelf, Shelf.within]
    split
    case h_1 => exact h.readable
    case h_2 S picked =>
      split at picked
      case isFalse => cases picked
      case isTrue =>
        obtain rfl := Option.some.inj picked
        exact keeps_provider.readable h.readable
          (fun q s member => readable_write_provider (h.inner s member) q) p

theorem named_versionKey : Named versionKey :=
  named_of_identifier (show identifier versionKey = some (versionKey, []) from rfl)

theorem named_requiredVersionKey : Named requiredVersionKey :=
  named_of_identifier (show identifier requiredVersionKey = some (requiredVersionKey, []) from rfl)

/-- A structure on the top level with its versions written. -/
theorem readable_write_structure {s : Structure} (h : s.Stable) (p : Writes) :
    (structureShelf.write p s).Readable := by
  cases s with
  | attr => exact h.readable
  | block layout word gap labels frame items =>
    simp only [structureShelf, Shelf.within]
    split
    case h_1 => exact h.readable
    case h_2 S picked =>
      split at picked
      case isTrue =>
        obtain rfl := Option.some.inj picked
        simp only [moduleShelf, attributeShelf]
        split
        · exact h.readable
        · exact h.readable.setAttribute named_versionKey _
      case isFalse =>
        split at picked
        case isFalse => cases picked
        case isTrue =>
          obtain rfl := Option.some.inj picked
          have nested := fun q => keeps_nested.readable h.readable
            (fun q s member => readable_write_nested (h.inner s member) q) q
          simp only [terraformShelf, Shelf.both, write_required]
          split
          · exact nested _
          · -- The version is written to the block with the providers written.
            rw [← setAttribute_write_nestedBody]
            exact (nested _).setAttribute named_requiredVersionKey _

namespace Document

/-- A document that is read from its own text. -/
def Stable (d : Document) : Prop :=
  read? d.text = some d

/-- No heredoc in a document is without lines. -/
def Whole (d : Document) : Prop :=
  WholeStructures d.body.items

instance (d : Document) : Decidable d.Whole :=
  decideWholeStructures d.body.items

/-- A text is read as a document if the grammar takes all of it. -/
theorem read?_eq_some_iff {d d' : Document} :
    read? d.text = some d' ↔ document d.body.chars = some (d'.body, []) := by
  rw [read?, Option.map_eq_some_iff, text, String.toList_ofList, Body.read?]
  unfold Scan.all?
  constructor
  · rintro ⟨body, run, rfl⟩
    split at run
    case h_1 b same =>
      obtain rfl := Option.some.inj run
      exact same
    case h_2 => cases run
  · intro run
    rw [run]
    exact ⟨d'.body, rfl, rfl⟩

variable {d : Document}

/-- A stable document without empty heredocs is readable. -/
theorem Stable.readable (h : d.Stable) (whole : d.Whole) : d.body.Readable :=
  d.body.readable_of_document (read?_eq_some_iff.mp h) whole

theorem Stable.structures (h : d.Stable) (whole : d.Whole) : ∀ s ∈ d.body.items, s.Stable := by
  intro s member
  have written := Body.asRead_of_document (read?_eq_some_iff.mp h) whole
  have same : d.body.items.map Structure.asRead = d.body.items.map id :=
    (congrArg Body.items written).trans (List.map_id _).symm
  exact ⟨(h.readable whole).readable s member, List.map_inj_left.mp same s member,
    wholeStructures_iff.mp whole s member⟩

/-- A document with versions written is readable. -/
theorem readable_write (h : d.Stable) (whole : d.Whole) (p : Writes) :
    (d.write p).body.Readable := by
  obtain ⟨opening, oneLine, distinct, placed, -, unended, closing⟩ := h.readable whole
  have shape : (d.write p).body = ⟨d.body.frame, structureShelf.writeList p d.body.items⟩ := rfl
  rw [shape]
  refine ⟨opening, oneLine, ?_, placed_of_layouts (keeps_structure.layouts p _) placed, ?_, ?_,
    closing⟩
  · rw [distinctKeys_iff, keeps_structure.keys, ← distinctKeys_iff]
    exact distinct
  · intro s member
    obtain ⟨q, t, inside, rfl⟩ := Shelf.mem_writeList member
    exact readable_write_structure (h.structures whole t inside) q
  · intro noEnd
    obtain ⟨nothing, nonempty⟩ := unended noEnd
    refine ⟨nothing, fun empty => nonempty ?_⟩
    have lengths := congrArg List.length empty
    rw [Shelf.length_writeList] at lengths
    exact List.length_eq_zero_iff.mp lengths

/-- A document as it is read back. -/
def asRead (d : Document) : Document :=
  ⟨d.body.asRead⟩

/-- What is read from the text of a document with versions written. -/
theorem read?_write (h : d.Stable) (whole : d.Whole) (p : Writes) :
    read? (d.write p).text = some (d.write p).asRead :=
  read?_eq_some_iff.mpr (document_of_readable (readable_write h whole p))

end Document

end TerraformPins
