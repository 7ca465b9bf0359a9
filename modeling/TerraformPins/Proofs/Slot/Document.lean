import TerraformPins.Proofs.Slot.Attribute
import TerraformPins.Proofs.Slot.Provider
import TerraformPins.Update

/-!
# The slots of a document

A `module` block holds one slot, a `terraform` block one of its own and those of the providers in
it. The last two kinds share one list of structures: a version that is added to the `terraform`
block is put between blocks that hold slots of providers. Neither sees the other, since one reads
and writes attributes and the other the inside of blocks.

## Main definitions

* `nestedShelf`, `terraformShelf`, `structureShelf`, `documentShelf` — the slots on each level
* `Document.slots` — the slots of a document

## Main results

* `Document.sites_eq` — the sites of a document are what its slots say
* `Document.walk_eq` — a walk decides at the slots and then writes
* `Document.setVersion_eq` — a version set at one slot
-/

namespace TerraformPins

open Hcl Document

namespace Hcl

/-- A body is its frame and its structures. -/
theorem Body.ext {a b : Body} (frame : a.frame = b.frame) (items : a.items = b.items) : a = b := by
  cases a
  cases b
  simp_all

/-- The structures inside a block. -/
def Structure.inner : Structure → List Structure
  | .attr .. => []
  | .block _ _ _ _ _ items => items

/-- A block with other structures inside. -/
def Structure.withInner (items : List Structure) : Structure → Structure
  | .attr layout key gap value => .attr layout key gap value
  | .block layout word gap labels frame _ => .block layout word gap labels frame items

/-- The body of a block. -/
def Structure.body : Structure → Body
  | .attr .. => ⟨⟨[], [], false, false⟩, []⟩
  | .block _ _ _ _ frame items => ⟨frame, items⟩

/-- A block with another body. -/
def Structure.withBody (body : Body) : Structure → Structure
  | .attr layout key gap value => .attr layout key gap value
  | .block layout word gap labels _ _ => .block layout word gap labels body.frame body.items

end Hcl

/-- The slots of the providers in a block with settings of `terraform`. -/
def nestedShelf : Shelf Structure :=
  .within
    (fun
      | .attr .. => none
      | .block _ word _ _ _ _ =>
        if word = requiredProvidersWord then some providerShelf.list else none)
    Structure.inner Structure.withInner
    (fun items s => by cases s <;> rfl)
    (fun items s picked => by
      cases s with
      | attr => cases picked
      | block => rfl)
    (fun s => by cases s <;> rfl)
    (fun items more s => by cases s <;> rfl)

/-- The walk over a nested block visits the slots of the nested providers. -/
theorem walkNested_eq {σ : Type} (visit : Visit σ) (s : σ) (x : Structure) :
    walkNested visit s x = nestedShelf.walk visit s x := by
  cases x with
  | attr => rfl
  | block layout word gap labels frame items =>
    simp only [walkNested, nestedShelf, Shelf.within]
    split <;> rfl

section Nested

variable (p : Writes) (s : Structure)

/-- Writing to a nested block changes no attribute next to it. -/
@[simp] theorem valueOf?_write_nested (key : Chars) :
    (nestedShelf.write p s).valueOf? key = s.valueOf? key := by
  cases s with
  | attr => rfl
  | block =>
    simp only [nestedShelf, Shelf.within]
    split <;> rfl

@[simp] theorem layout_write_nested : (nestedShelf.write p s).layout = s.layout := by
  cases s with
  | attr => rfl
  | block =>
    simp only [nestedShelf, Shelf.within]
    split <;> rfl

@[simp] theorem slots_withLayout_nested (layout : Layout) :
    nestedShelf.slots (s.withLayout layout) = nestedShelf.slots s := by
  cases s <;> rfl

/-- A nested block may be moved before or after it is written to. -/
theorem write_withLayout_nested (layout : Layout) :
    nestedShelf.write p (s.withLayout layout) = (nestedShelf.write p s).withLayout layout := by
  cases s with
  | attr => rfl
  | block =>
    simp only [nestedShelf, Shelf.within, Structure.withLayout]
    split <;> rfl

/-- An attribute is no nested block and holds no slots. -/
theorem slots_attr_nested (layout : Layout) (key : Chars) (gap : Option Chars) (value : Expr) :
    nestedShelf.slots (.attr layout key gap value) = [] := rfl

theorem write_attr_nested (layout : Layout) (key : Chars) (gap : Option Chars) (value : Expr) :
    nestedShelf.write p (.attr layout key gap value) = .attr layout key gap value := rfl

end Nested

/-- Structures of a block with settings of `terraform`, written one after another. -/
abbrev writeNested : Writes → List Structure → List Structure :=
  nestedShelf.writeList

/-- The slots of the providers among the structures of a block with settings of `terraform`. -/
abbrev nestedSlots : List Structure → List Slot :=
  List.flatMap nestedShelf.slots

section NestedList

variable (p : Writes) {key value : Chars} (items : List Structure)

/-- Writes at providers leave the attributes of a block alone. -/
theorem valueAmong?_writeNested (key : Chars) :
    valueAmong? key (writeNested p items) = valueAmong? key items := by
  induction items generalizing p with
  | nil => rfl
  | cons s rest ih => simp [writeNested, Shelf.writeList, valueAmong?_cons, ih]

/-- Structures may be moved before or after their nested blocks are written to. -/
theorem writeNested_withLayout (layout : Layout) :
    writeNested p (items.map (·.withLayout layout)) =
      (writeNested p items).map (·.withLayout layout) := by
  induction items generalizing p with
  | nil => rfl
  | cons s rest ih => simp [Shelf.writeList, write_withLayout_nested, ih]

/-- A value of an attribute may be exchanged before or after nested blocks are written to. -/
theorem retextAttribute?_writeNested :
    retextAttribute? key value (writeNested p items) =
      (retextAttribute? key value items).map (writeNested p) := by
  induction items generalizing p with
  | nil => rfl
  | cons s rest ih =>
    cases s with
    | block layout word gap labels frame inner =>
      have stays : ∃ inner', nestedShelf.write p (.block layout word gap labels frame inner) =
          .block layout word gap labels frame inner' := by
        simp only [nestedShelf, Shelf.within]
        split <;> exact ⟨_, rfl⟩
      obtain ⟨inner', written⟩ := stays
      simp only [writeNested, Shelf.writeList, written, retextAttribute?] at ih ⊢
      rw [ih, Option.map_map, Option.map_map]
      congr 1
      funext rest'
      simp [Shelf.writeList, written]
    | attr layout k gap e =>
      simp only [writeNested, Shelf.writeList, write_attr_nested, retextAttribute?] at ih ⊢
      split
      · simp [Shelf.writeList, write_attr_nested, slots_attr_nested]
      · rw [ih, Option.map_map, Option.map_map]
        rfl

/-- An attribute between nested blocks is left alone, and the numbers of the slots behind it do not
count it. -/
theorem writeNested_append_attr (init rest : List Structure) (layout : Layout) (key : Chars)
    (gap : Option Chars) (e : Expr) :
    writeNested p (init ++ .attr layout key gap e :: rest) = writeNested p init ++
      .attr layout key gap e :: writeNested (p.shift (nestedSlots init).length) rest := by
  simp [writeNested, Shelf.writeList_append, Shelf.writeList, write_attr_nested, slots_attr_nested]

/-- An attribute between nested blocks adds no slots. -/
theorem nestedSlots_append_attr (init rest : List Structure) (layout : Layout) (key : Chars)
    (gap : Option Chars) (e : Expr) :
    nestedSlots (init ++ .attr layout key gap e :: rest) =
      nestedSlots init ++ nestedSlots rest := by
  simp [nestedSlots, slots_attr_nested]

/-- Writing to nested blocks changes no indentation. -/
theorem indentation_writeNested :
    (writeNested p items).findSome? (fun s => s.layout.indentation?) =
      items.findSome? fun s => s.layout.indentation? := by
  induction items generalizing p with
  | nil => rfl
  | cons s rest ih => simp [writeNested, Shelf.writeList, List.findSome?_cons, ih]

theorem findIdx?_isSource_writeNested :
    (writeNested p items).findIdx? Structure.isSource = items.findIdx? Structure.isSource := by
  induction items generalizing p with
  | nil => rfl
  | cons s rest ih =>
    simp only [Shelf.writeList, List.findIdx?_cons, Structure.isSource, valueOf?_write_nested, ih]
    rfl

/-- The first structures after a write are the first structures, written to. -/
theorem writeNested_take (n : Nat) :
    (writeNested p items).take n = writeNested p (items.take n) := by
  induction items generalizing p n with
  | nil => simp
  | cons s rest ih =>
    cases n with
    | zero => rfl
    | succ n => simp [writeNested, Shelf.writeList, ih]

/-- The last structures after a write are the last structures, written to from the number of the
slots in front of them. -/
theorem writeNested_drop (n : Nat) :
    (writeNested p items).drop n =
      writeNested (p.shift (nestedSlots (items.take n)).length) (items.drop n) := by
  induction items generalizing p n with
  | nil => simp
  | cons s rest ih =>
    cases n with
    | zero => rfl
    | succ n => simp [writeNested, Shelf.writeList, ih, Writes.shift_shift]

/-- A place behind an attribute divides the nested blocks, and with them the numbers that are
written to. -/
theorem splitBehind_writeNested :
    splitBehind Structure.isSource (writeNested p items) =
      (writeNested p (splitBehind Structure.isSource items).1,
        writeNested (p.shift (nestedSlots (splitBehind Structure.isSource items).1).length)
          (splitBehind Structure.isSource items).2) := by
  unfold splitBehind
  rw [findIdx?_isSource_writeNested]
  cases items.findIdx? Structure.isSource with
  | none => rfl
  | some i => simp [writeNested_take, writeNested_drop]

end NestedList

/-- The slots of the providers in the body of a `terraform` block. -/
def nestedBodyShelf : Shelf Body :=
  .within (fun _ => some nestedShelf.list) Body.items (fun items body => { body with items })
    (fun _ _ => rfl) (fun _ _ _ => rfl) (fun _ => rfl) (fun _ _ _ => rfl)

theorem write_nestedBody (p : Writes) (body : Body) :
    nestedBodyShelf.write p body = { body with items := writeNested p body.items } := rfl

theorem slots_nestedBody (body : Body) : nestedBodyShelf.slots body = nestedSlots body.items := rfl

/-- A body may be spread over lines before or after its nested blocks are written to. -/
theorem spread_write_nestedBody (p : Writes) (body : Body) :
    (nestedBodyShelf.write p body).spread = nestedBodyShelf.write p body.spread := by
  cases h : body.frame.oneLine <;> simp [write_nestedBody, Body.spread, h, writeNested_withLayout]

/-- A version written to an attribute of a block leaves the providers in the block alone. -/
theorem slots_setAttribute_nestedBody (key value : Chars) (body : Body) :
    nestedBodyShelf.slots (body.setAttribute key value) = nestedBodyShelf.slots body :=
  flatMap_setAttribute slots_attr_nested
    (fun layout s => slots_withLayout_nested s layout) body key value

/-- Writing to an attribute of a block and to the providers in it can be done in either order. -/
theorem setAttribute_write_nestedBody (p : Writes) (key value : Chars) (body : Body) :
    (nestedBodyShelf.write p body).setAttribute key value =
      nestedBodyShelf.write p (body.setAttribute key value) := by
  cases written : retextAttribute? key value body.items with
  | some changed =>
    have again : retextAttribute? key value (nestedBodyShelf.write p body).items =
        some (writeNested p changed) := by
      rw [write_nestedBody, retextAttribute?_writeNested, written]
      rfl
    rw [setAttribute_of_some written, setAttribute_of_some again]
    rfl
  | none =>
    -- A new attribute is placed and indented by what a write to a provider leaves as it is.
    have missing := retextAttribute?_eq_none_iff.mp written
    have still : valueAmong? key (nestedBodyShelf.write p body).items = none := by
      rw [write_nestedBody, valueAmong?_writeNested, missing]
    have added : (nestedBodyShelf.write p body).added key value = body.added key value := by
      rw [Body.added, Body.added, spread_write_nestedBody]
      simp only [write_nestedBody, indentation_writeNested]
    rw [setAttribute_of_none missing, setAttribute_of_none still]
    have items : ((nestedBodyShelf.write p body).addAttribute key value).items =
        writeNested p (body.addAttribute key value).items := by
      rw [addAttribute_items, addAttribute_items, added, spread_write_nestedBody, write_nestedBody,
        splitBehind_writeNested, Body.added, writeNested_append_attr]
    have frame : ((nestedBodyShelf.write p body).addAttribute key value).frame =
        (body.addAttribute key value).frame := by
      rw [addAttribute_frame, addAttribute_frame, spread_write_nestedBody]
      rfl
    exact Body.ext frame items

/-- The slot of a `module` block. -/
def moduleShelf (labels : List Label) : Shelf Body :=
  attributeShelf .module ((labels.head?.map fun l => String.ofList l.text).getD "")
    (fun items => ((valueAmong? sourceKey items).map fun e => String.ofList e.plainText).getD "")
    versionKey
    (fun body value => by rw [valueAmong?_setAttribute_of_ne body sourceKey_ne_versionKey value])

/-- The slot for the version of `terraform` itself. -/
def requiredShelf : Shelf Body :=
  attributeShelf .terraform "terraform" (fun _ => "") requiredVersionKey fun _ _ => rfl

/-- A `terraform` block has one slot for the version of the program. -/
theorem slots_required (body : Body) :
    requiredShelf.slots body =
      [attributeSlot .terraform "terraform" "" requiredVersionKey body.items] := rfl

/-- Writing to this slot sets the attribute. -/
theorem write_required (p : Writes) (body : Body) :
    requiredShelf.write p body = match p 0 with
      | none => body
      | some version => body.setAttribute requiredVersionKey version.toList := rfl

/-- The slots of a `terraform` block, its own in front of those of the providers. -/
def terraformShelf : Shelf Body :=
  .both requiredShelf nestedBodyShelf
    (fun p body => by
      rw [slots_required, slots_required, write_nestedBody]
      simp only [attributeSlot, attributePlace, valueAmong?_writeNested])
    (fun p body => by
      rw [write_required]
      split
      · rfl
      · exact slots_setAttribute_nestedBody _ _ body)
    (fun p q body => by
      rw [write_required, write_required]
      split
      · rfl
      · exact setAttribute_write_nestedBody q _ _ body)

/-- The slots of a structure on the top level. -/
def structureShelf : Shelf Structure :=
  .within
    (fun
      | .attr .. => none
      | .block _ word _ labels _ _ =>
        if word = moduleWord then some (moduleShelf labels)
        else if word = terraformWord then some terraformShelf
        else none)
    Structure.body Structure.withBody
    (fun body s => by cases s <;> rfl)
    (fun body s picked => by
      cases s with
      | attr => cases picked
      | block => rfl)
    (fun s => by cases s <;> rfl)
    (fun body more s => by cases s <;> rfl)

/-- The site of a module is what its slot shows. -/
theorem moduleSite_eq (labels : List Label) (items : List Structure) (frame : Frame) :
    [moduleSite labels items] = ((moduleShelf labels).slots ⟨frame, items⟩).map Slot.site := by
  simp only [moduleShelf, attributeShelf, List.map_cons, List.map_nil, site_attributeSlot]
  rfl

theorem terraformSite_eq (items : List Structure) (frame : Frame) :
    [terraformSite items] = (requiredShelf.slots ⟨frame, items⟩).map Slot.site := by
  simp only [slots_required, List.map_cons, List.map_nil, site_attributeSlot]
  rfl

/-- The walk over a structure visits the slots of the structure in their order. -/
theorem walkStructure_eq {σ : Type} (visit : Visit σ) (s : σ) (x : Structure) :
    walkStructure visit s x = structureShelf.walk visit s x := by
  cases x with
  | attr => rfl
  | block layout word gap labels frame items =>
    have nested : mapWith (walkNested visit) = nestedShelf.list.walk visit := by
      have same : @walkNested σ visit = nestedShelf.walk visit := by
        funext s x
        exact walkNested_eq visit s x
      rw [same]
      rfl
    simp only [walkStructure, structureShelf, Shelf.within]
    by_cases isModule : word = moduleWord
    · have site := (List.cons.inj (moduleSite_eq labels items frame)).1
      rw [if_pos isModule, if_pos isModule, site]
      rfl
    · rw [if_neg isModule, if_neg isModule]
      by_cases isTerraform : word = terraformWord
      · have site := (List.cons.inj (terraformSite_eq items frame)).1
        rw [if_pos isTerraform, if_pos isTerraform, site, nested]
        rfl
      · rw [if_neg isTerraform, if_neg isTerraform]

/-- The sites of providers are what the slots of providers show. -/
theorem providerSites_eq (items : List Structure) :
    providerSites items = (providerShelf.list.slots items).map Slot.site := by
  induction items with
  | nil => rfl
  | cons s rest ih =>
    simp only [providerSites, Shelf.list] at ih ⊢
    rw [List.filterMap_cons, List.flatMap_cons, List.map_append, ← ih]
    cases s with
    | block => rfl
    | attr layout key gap value =>
      simp only [providerSite?_eq, providerShelf]
      cases providerSlot? key value <;> rfl

theorem nestedSites_eq (items : List Structure) :
    nestedSites items = (nestedSlots items).map Slot.site := by
  induction items with
  | nil => rfl
  | cons s rest ih =>
    simp only [nestedSites, nestedSlots] at ih ⊢
    rw [List.flatMap_cons, List.flatMap_cons, List.map_append, ← ih]
    cases s with
    | attr => rfl
    | block layout word gap labels frame inner =>
      simp only [nestedShelf, Shelf.within]
      split
      · rw [providerSites_eq]
        rfl
      · rfl

/-- The sites of a structure are what its slots show. -/
theorem structureSites_eq (s : Structure) :
    structureSites s = (structureShelf.slots s).map Slot.site := by
  cases s with
  | attr => rfl
  | block layout word gap labels frame items =>
    simp only [structureSites, structureShelf, Shelf.within]
    by_cases isModule : word = moduleWord
    · rw [if_pos isModule, if_pos isModule]
      exact moduleSite_eq labels items frame
    · rw [if_neg isModule, if_neg isModule]
      by_cases isTerraform : word = terraformWord
      · rw [if_pos isTerraform, if_pos isTerraform, nestedSites_eq, ← List.singleton_append,
          terraformSite_eq items frame, ← List.map_append]
        rfl
      · rw [if_neg isTerraform, if_neg isTerraform]
        rfl

/-- The slots of a document. -/
def documentShelf : Shelf Document :=
  .within (fun _ => some structureShelf.list) (fun d => d.body.items)
    (fun items d => ⟨⟨d.body.frame, items⟩⟩)
    (fun _ _ => rfl) (fun _ _ _ => rfl) (fun _ => rfl) (fun _ _ _ => rfl)

namespace Document

/-- The slots of a document, in the order of the text. -/
def slots (d : Document) : List Slot :=
  documentShelf.slots d

/-- A document after writes. -/
def write (p : Writes) (d : Document) : Document :=
  documentShelf.write p d

/-- The sites of a document are what its slots say. -/
theorem sites_eq (d : Document) : d.sites = d.slots.map Slot.site := by
  simp only [sites, Body.sites, slots, documentShelf, Shelf.within, Shelf.list, List.map_flatMap]
  congr 1
  funext s
  exact structureSites_eq s

/-- The pins of a document are those of its slots. -/
theorem pins_eq (d : Document) : d.pins = d.slots.map Slot.pin := by
  rw [pins, Body.pins, ← sites, sites_eq, List.map_map]
  rfl

/-- A walk decides at the slots, in turn, and then writes. -/
theorem walk_eq {σ : Type} (visit : Visit σ) (s : σ) (d : Document) :
    d.walk visit s =
      ((choices visit s d.slots).1, d.write (.ofList (choices visit s d.slots).2)) := by
  have shelf := documentShelf.walk_eq visit s d
  rw [← slots, ← write] at shelf
  rw [← shelf]
  have structures : @walkStructure σ visit = structureShelf.walk visit := by
    funext s x
    exact walkStructure_eq visit s x
  rw [walk, structures]
  rfl

/-- Writing to a document puts each version into its slot and leaves the other slots alone. -/
theorem slots_write (p : Writes) (d : Document) :
    (d.write p).slots = d.slots.mapIdx fun i s => s.put (p i) :=
  documentShelf.slots_write p d

/-- Of two writes to a slot the second one counts. -/
theorem write_write (p q : Writes) (d : Document) : (d.write p).write q = d.write (q.after p) :=
  documentShelf.write_write p q d

/-- Writing what is there changes nothing. -/
theorem write_eq_self {p : Writes} {d : Document} (h : p.Repeats d.slots) : d.write p = d :=
  documentShelf.write_eq_self p d h

/-- A write depends on the numbers of the slots only. -/
theorem write_congr {p q : Writes} {d : Document} (h : ∀ i < d.slots.length, p i = q i) :
    d.write p = d.write q :=
  documentShelf.write_congr p q d h

section Split

variable {d : Document} {init rest : List Structure} {x : Structure}

/-- The slots of a document are those of the structures in front of a structure, its own and those
of the structures behind it. -/
theorem slots_of_split (split : d.body.items = init ++ x :: rest) :
    d.slots = init.flatMap structureShelf.slots ++
      (structureShelf.slots x ++ rest.flatMap structureShelf.slots) := by
  show d.body.items.flatMap structureShelf.slots = _
  rw [split, List.flatMap_append, List.flatMap_cons]

/-- The slots of a structure have the numbers behind those of the structures in front of it. -/
theorem slots_getElem?_of_split (split : d.body.items = init ++ x :: rest) {j : Nat}
    (bound : j < (structureShelf.slots x).length) :
    d.slots[j + (init.flatMap structureShelf.slots).length]? = some
      (structureShelf.slots x)[j] := by
  rw [slots_of_split split, List.getElem?_append_right (by omega), Nat.add_sub_cancel,
    List.getElem?_append_left bound, List.getElem?_eq_getElem bound]

end Split

/-- A provider whose source is a reference with a comment behind it. -/
def commentedSource : String :=
  "terraform \x7b\n  required_providers \x7b\n" ++
    "    aws = \x7b source = var.x /* c */ \x7d\n  \x7d\n\x7d\n"

end Document

end TerraformPins
