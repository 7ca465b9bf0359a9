import TerraformPins.Proofs.Slot.Text

/-!
# The text of a pin

A module is printed as its block and a provider as its entry. The providers stand inside the
`terraform` block, which has a version of its own; what belongs to this version is the block without
their entries. So every slot has a text, and the text of one slot does not depend on what is written
at the others. For the `terraform` block this needs that a version that is added there leaves the
blocks inside as they are, and that the entries that are taken out are the only ones that the other
writes change.

## Main definitions

* `Shelf.Prints` — a text for each slot that depends on what is written at this slot only
* `Document.prints` — the texts of the pins of a document

## Main results

* `Document.prints_congr` — the text of a pin depends on what is written there
* `Document.prints_write` — where nothing is written the text stays
-/

namespace TerraformPins

open Hcl Document

/-- A text for each slot of a value, in the order of the slots. It depends on what is written at
this slot and not on what is written at the others. -/
structure Shelf.Prints {α : Type} (S : Shelf α) (prints : α → List Chars) : Prop where
  length : ∀ x, (prints x).length = (S.slots x).length
  congr : ∀ p q x i, p i = q i → (prints (S.write p x))[i]? = (prints (S.write q x))[i]?

/-- The texts of the members of a list, one after another. -/
theorem Shelf.Prints.list {α : Type} {S : Shelf α} {prints : α → List Chars}
    (printed : S.Prints prints) : S.list.Prints (List.flatMap prints) where
  length xs := by
    simp only [Shelf.list, List.length_flatMap, printed.length]
  congr p q xs i same := by
    show ((S.writeList p xs).flatMap prints)[i]? = ((S.writeList q xs).flatMap prints)[i]?
    induction xs generalizing p q i with
    | nil => rfl
    | cons x xs ih =>
      have count (r : Writes) : (prints (S.write r x)).length = (S.slots x).length := by
        rw [printed.length, S.length_slots_write]
      simp only [Shelf.writeList, List.flatMap_cons]
      by_cases here : i < (S.slots x).length
      · rw [List.getElem?_append_left (by rwa [count]), List.getElem?_append_left (by rwa [count])]
        exact printed.congr p q x i same
      · -- The text belongs to a later member, whose writes are counted from behind `x`.
        rw [List.getElem?_append_right (by rw [count]; omega),
          List.getElem?_append_right (by rw [count]; omega), count, count]
        apply ih
        rwa [Writes.shift_apply, Writes.shift_apply, Nat.sub_add_cancel (by omega)]

/-! ### Providers -/

/-- Whether an entry of a `required_providers` block is a site. -/
def Hcl.Structure.isProvider : Structure → Bool
  | .attr _ key _ value => (providerSite? key value).isSome
  | .block .. => false

/-- The text of an entry of a `required_providers` block that is a site. -/
def entryPrints (s : Structure) : List Chars :=
  if s.isProvider then [s.chars] else []

theorem length_slots_provider (s : Structure) :
    (providerShelf.slots s).length = if s.isProvider then 1 else 0 := by
  cases s with
  | block => rfl
  | attr layout key gap value =>
    simp only [providerShelf, Structure.isProvider, providerSite?_eq]
    cases providerSlot? key value <;> rfl

/-- A write leaves an entry that is a site one, and makes no other one a site. -/
theorem isProvider_write (p : Writes) (s : Structure) :
    (providerShelf.write p s).isProvider = s.isProvider := by
  have count := providerShelf.length_slots_write p s
  rw [length_slots_provider, length_slots_provider] at count
  cases before : s.isProvider <;> cases after : (providerShelf.write p s).isProvider <;> simp_all

theorem prints_entry : providerShelf.Prints entryPrints where
  length s := by
    rw [length_slots_provider, entryPrints]
    split <;> rfl
  congr p q s i same := by
    unfold entryPrints
    rw [isProvider_write, isProvider_write]
    cases provider : s.isProvider with
    | false => rfl
    | true =>
      cases i with
      | succ i => rfl
      | zero =>
        have one : (providerShelf.slots s).length = 1 := by
          rw [length_slots_provider, if_pos provider]
        rw [providerShelf.write_congr p q s fun j bound => by rwa [show j = 0 by omega]]

/-- The texts of the providers in a block with settings of `terraform`. -/
def nestedPrints : Structure → List Chars
  | .attr .. => []
  | .block _ word _ _ _ items =>
    if word = requiredProvidersWord then items.flatMap entryPrints else []

theorem prints_nested : nestedShelf.Prints nestedPrints where
  length s := by
    cases s with
    | attr => rfl
    | block layout word gap labels frame items =>
      simp only [nestedShelf, Shelf.within, nestedPrints]
      split
      · exact prints_entry.list.length items
      · rfl
  congr p q s i same := by
    cases s with
    | attr => rfl
    | block layout word gap labels frame items =>
      simp only [nestedShelf, Shelf.within]
      by_cases listed : word = requiredProvidersWord
      · simp only [if_pos listed, Structure.withInner, Structure.inner, nestedPrints]
        exact prints_entry.list.congr p q items i same
      · simp only [if_neg listed]

/-! ### The block around the providers -/

/-- A block with settings of `terraform` without the entries of providers. -/
def Hcl.Structure.withoutProviders : Structure → Structure
  | .attr layout key gap value => .attr layout key gap value
  | .block layout word gap labels frame items =>
    .block layout word gap labels frame
      (if word = requiredProvidersWord then items.filter fun s => !s.isProvider else items)

/-- What is written to the entries of providers is lost when they are taken out. -/
theorem filter_writeList_provider (p : Writes) (items : List Structure) :
    (providerShelf.writeList p items).filter (fun s => !s.isProvider) =
      items.filter fun s => !s.isProvider := by
  induction items generalizing p with
  | nil => rfl
  | cons s rest ih =>
    rw [Shelf.writeList, List.filter_cons, List.filter_cons, isProvider_write, ih]
    cases provider : s.isProvider with
    | true => rfl
    | false =>
      -- An entry that is no site has no slot, so nothing is written to it.
      have none : providerShelf.slots s = [] := by
        rw [← List.length_eq_zero_iff, length_slots_provider, provider]
        rfl
      rw [providerShelf.write_eq_self p s fun j t v found => by rw [none] at found; cases found]

theorem withoutProviders_write (p : Writes) (s : Structure) :
    (nestedShelf.write p s).withoutProviders = s.withoutProviders := by
  cases s with
  | attr => rfl
  | block layout word gap labels frame items =>
    simp only [nestedShelf, Shelf.within]
    by_cases listed : word = requiredProvidersWord
    · simp only [if_pos listed, Structure.withInner, Structure.inner, Structure.withoutProviders]
      rw [← filter_writeList_provider p items]
      rfl
    · simp only [if_neg listed]

theorem map_withoutProviders_writeNested (p : Writes) (items : List Structure) :
    (writeNested p items).map Structure.withoutProviders =
      items.map Structure.withoutProviders := by
  induction items generalizing p with
  | nil => rfl
  | cons s rest ih =>
    simp only [writeNested, Shelf.writeList, List.map_cons, withoutProviders_write] at ih ⊢
    rw [ih]

/-! ### Structures and documents -/

/-- The texts of the pins of a structure on the top level. -/
def structurePrints : Structure → List Chars
  | .attr .. => []
  | .block layout word gap labels frame items =>
    if word = moduleWord then [(Structure.block layout word gap labels frame items).chars]
    else if word = terraformWord then
      (Structure.block layout word gap labels frame (items.map Structure.withoutProviders)).chars ::
        items.flatMap nestedPrints
    else []

/-- The version of `terraform` itself leaves the providers alone. -/
theorem nestedPrints_write_required (p : Writes) (body : Body) :
    (requiredShelf.write p body).items.flatMap nestedPrints = body.items.flatMap nestedPrints := by
  rw [write_required]
  split
  · rfl
  · exact flatMap_setAttribute (fun _ _ _ _ => rfl) (fun layout s => by cases s <;> rfl) body _ _

/-- The block of `terraform` after writes, without the entries of providers, is the one after the
first of them; and the providers are those after the others. -/
theorem write_terraform (p : Writes) (body : Body) :
    (terraformShelf.write p body).frame = (requiredShelf.write p body).frame ∧
      (terraformShelf.write p body).items.map Structure.withoutProviders =
        (requiredShelf.write p body).items.map Structure.withoutProviders ∧
      (terraformShelf.write p body).items.flatMap nestedPrints =
        (writeNested (p.shift 1) body.items).flatMap nestedPrints := by
  have inside : terraformShelf.write p body =
      nestedBodyShelf.write (p.shift 1) (requiredShelf.write p body) := rfl
  -- The two kinds of writes can be done in either order, and each part is seen in one of them.
  have outside : terraformShelf.write p body =
      requiredShelf.write p (nestedBodyShelf.write (p.shift 1) body) := by
    rw [inside, write_required, write_required]
    split
    · rfl
    · exact (setAttribute_write_nestedBody _ _ _ body).symm
  refine ⟨by rw [inside]; rfl, ?_, ?_⟩
  · rw [inside]
    exact map_withoutProviders_writeNested _ _
  · rw [outside, nestedPrints_write_required]
    rfl

theorem prints_structure : structureShelf.Prints structurePrints where
  -- The kind of the block tells its slots: one in a module, one more than the providers in
  -- `terraform`.
  length s := by
    cases s with
    | attr => rfl
    | block layout word gap labels frame items =>
      simp only [structureShelf, Shelf.within, structurePrints]
      by_cases isModule : word = moduleWord
      · rw [if_pos isModule, if_pos isModule]
        rfl
      · rw [if_neg isModule, if_neg isModule]
        by_cases isTerraform : word = terraformWord
        · rw [if_pos isTerraform, if_pos isTerraform, List.length_cons, prints_nested.list.length]
          show _ = (requiredShelf.slots ⟨frame, items⟩ ++ nestedSlots items).length
          rw [List.length_append, Nat.add_comm]
          rfl
        · rw [if_neg isTerraform, if_neg isTerraform]
          rfl
  congr p q s i same := by
    cases s with
    | attr => rfl
    | block layout word gap labels frame items =>
      simp only [structureShelf, Shelf.within]
      by_cases isModule : word = moduleWord
      · simp only [if_pos isModule, Structure.withBody, Structure.body, structurePrints]
        cases i with
        | succ i => rfl
        | zero =>
          rw [(moduleShelf labels).write_congr p q ⟨frame, items⟩ fun j bound => by
            rwa [show j = 0 from Nat.lt_one_iff.mp bound]]
      · simp only [if_neg isModule]
        by_cases isTerraform : word = terraformWord
        · -- The first text depends on the first write only, and the others on the other ones.
          obtain ⟨frame₁, around₁, nested₁⟩ := write_terraform p ⟨frame, items⟩
          obtain ⟨frame₂, around₂, nested₂⟩ := write_terraform q ⟨frame, items⟩
          simp only [if_pos isTerraform, Structure.withBody, Structure.body, structurePrints,
            if_neg isModule, frame₁, around₁, nested₁, frame₂, around₂, nested₂]
          cases i with
          | zero =>
            rw [requiredShelf.write_congr p q ⟨frame, items⟩ fun j bound => by
              rwa [show j = 0 from Nat.lt_one_iff.mp bound]]
            rfl
          | succ i => exact prints_nested.list.congr (p.shift 1) (q.shift 1) items i same
        · simp only [if_neg isTerraform]

namespace Document

/-- The texts of the pins of a document, in the order of the slots: the block of a module, the entry
of a provider, and for `terraform` itself its block without the entries of the providers. -/
def prints (d : Document) : List String :=
  (d.body.items.flatMap structurePrints).map String.ofList

/-- Every slot has a text. -/
theorem length_prints (d : Document) : d.prints.length = d.slots.length := by
  rw [prints, List.length_map]
  exact prints_structure.list.length d.body.items

/-- The text of a pin depends on what is written there, and not on what is written elsewhere. -/
theorem prints_congr {p q : Writes} {i : Nat} (same : p i = q i) (d : Document) :
    (d.write p).prints[i]? = (d.write q).prints[i]? := by
  rw [prints, prints, List.getElem?_map, List.getElem?_map]
  exact congrArg _ (prints_structure.list.congr p q d.body.items i same)

/-- The text of a pin stays if nothing is written there. -/
theorem prints_write {p : Writes} {i : Nat} (idle : p i = none) (d : Document) :
    (d.write p).prints[i]? = d.prints[i]? := by
  have nothing : d.write (fun _ => none) = d :=
    write_eq_self (Writes.repeats_of_none fun _ _ => rfl)
  rw [prints_congr (q := fun _ => none) idle, nothing]

end Document

end TerraformPins
