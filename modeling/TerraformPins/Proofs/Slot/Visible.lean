import TerraformPins.Proofs.Hcl.Clash

/-!
# Writes that show

A quoted string ends where its quote is closed, so it is told from any other quoted string and from
everything that begins without a quote. A version that is added shows as well. So if what is written
to a structure replaces such versions or none, the structure stays the same or its text tells that
it does not. The slots are gone through in the order of the text: the first one that differs is the
one that shows.

## Main definitions

* `Slot.Plain` — a slot without a version or with one that is told from quoted strings
* `Shelf.Visible` — what is written to plain slots shows

## Main results

* `visible_structure` — this holds for the structures of every document that was read
-/

namespace TerraformPins

open Hcl Document

/-- Quoted strings that begin alike are the same. -/
theorem quotedVersion_inj {v w : String} {t t' : Chars}
    (same : quotedVersion v ++ t = quotedVersion w ++ t') : v = w := by
  have first := quoted_text v.toList t
  have second := quoted_text w.toList t'
  rw [← quotedVersion, same, quotedVersion, second] at first
  exact (String.toList_inj.mp (Node.text.inj (Prod.mk.inj (Option.some.inj first)).1)).symm

/-- A version, if a slot holds one, is a quoted string or begins with something else than a
quote. -/
def Slot.Plain (s : Slot) : Prop :=
  ∀ node, s.held = some node → (∃ value, node = .text value) ∨ ∃ c ∈ node.chars.head?, c ≠ '"'

/-- A quoted string in the place of a plain version is this version or shows. -/
theorem clash_quotedVersion {s : Slot} {node : Node} (plain : s.Plain) (held : s.held = some node)
    (v : String) : node = .text v.toList ∨ Clash (quotedVersion v) node.chars := by
  rcases plain node held with ⟨value, rfl⟩ | ⟨c, first, other⟩
  · rw [or_iff_not_imp_left]
    intro differs t t' same
    have quoted : quotedVersion v ++ t = quotedVersion (String.ofList value) ++ t' := by
      rw [same, quotedVersion, String.toList_ofList]
    rw [quotedVersion_inj quoted, String.toList_ofList] at differs
    exact differs rfl
  · obtain ⟨rest, split⟩ := List.head?_eq_some_iff.mp first
    rw [split]
    exact .inr (.of_head other.symm)

namespace Writes

variable {p : Writes} {xs ys : List Slot}

/-- Only plain slots are written. -/
def Plain (p : Writes) (slots : List Slot) : Prop :=
  ∀ i s v, slots[i]? = some s → p i = some v → s.Plain

/-- A write of plain versions to all slots is one to the first ones. -/
theorem Plain.left (h : p.Plain (xs ++ ys)) : p.Plain xs :=
  each_left h

theorem Plain.right (h : p.Plain (xs ++ ys)) : (p.shift xs.length).Plain ys :=
  each_right h

end Writes

namespace Shelf

variable {α : Type} {S : Shelf α} {good : α → Prop} {chars : α → Chars}

/-- What is written to plain slots of a value of some kind shows in its text. -/
def Visible (S : Shelf α) (good : α → Prop) (chars : α → Chars) : Prop :=
  ∀ x p, good x → p.Plain (S.slots x) → Shows chars (S.write p x) x

/-- At the only slot of a value, it is enough that a version that is added shows. -/
theorem Replaces.visible (replaces : S.Replaces chars)
    (single : ∀ x, S.slots x = [] ∨ ∃ s, S.slots x = [s])
    (added : ∀ x s v, good x → S.slots x = [s] → s.held = none →
      Clash (chars (S.write (.single 0 v) x)) (chars x)) : S.Visible good chars := by
  intro x p ok plain
  rcases single x with none | ⟨s, one⟩
  · exact .inl (S.write_eq_self p x fun i s v found => by simp [none] at found)
  · have stays (q : Writes) (same : ∀ v, q 0 = some v → s.held = some (.text v.toList)) :
        S.write q x = x :=
      S.write_eq_self q x (one ▸ Writes.repeats_singleton same)
    have found : (S.slots x)[0]? = some s := by
      rw [one]
      rfl
    -- Nothing is written, or a version is added, or it takes the place of another one.
    cases written : p 0 with
    | none => exact .inl (stays p fun v here => by rw [written] at here; cases here)
    | some v =>
      rw [S.write_eq_single one written]
      cases held : s.held with
      | none => exact .inr (added x s v ok one held)
      | some node =>
        rcases clash_quotedVersion (plain 0 s v found written) held v with rfl | clash
        · exact .inl (stays _ fun w here => by rw [held, Option.some.inj here])
        · obtain ⟨before, after, now, later⟩ := replaces x 0 s node found held
          refine .inr ?_
          rw [now, later]
          exact (clash.prepend before).append after after

/-- Members of a list are related to what they become if each of them is. -/
theorem forall₂_writeList (S : Shelf α) {R : α → α → Prop} {p : Writes} {xs : List α}
    (each : ∀ init x rest, xs = init ++ x :: rest →
      R (S.write (p.shift (init.flatMap S.slots).length) x) x) : List.Forall₂ R
        (S.writeList p xs) xs := by
  induction xs generalizing p with
  | nil => exact .nil
  | cons x xs ih =>
    refine .cons (each [] x xs rfl) (ih ?_)
    rintro init y rest rfl
    have here := each (x :: init) y rest rfl
    rwa [List.flatMap_cons, List.length_append, ← Writes.shift_shift] at here

/-- What is written to the members of a list is seen at those that it changes. -/
theorem Visible.list (visible : S.Visible good chars) {xs : List α} {p : Writes}
    (each : ∀ x ∈ xs, good x) (plain : p.Plain (xs.flatMap S.slots)) :
    List.Forall₂ (Shows chars) (S.writeList p xs) xs := by
  refine S.forall₂_writeList fun init x rest split => ?_
  subst split
  rw [List.flatMap_append, List.flatMap_cons] at plain
  exact visible x _ (each x (List.mem_append_right _ List.mem_cons_self)) plain.right.left

end Shelf

/-! ### The levels of a document -/

/-- A version that is written to a provider is seen in its text. -/
theorem visible_provider : providerShelf.Visible Structure.Parsed Structure.chars := by
  refine replaces_provider.visible slots_provider fun x s v parsed one missing => ?_
  cases x with
  | block => cases one
  | attr layout key gap value =>
    obtain ⟨around, node⟩ := value
    -- A slot without a version belongs to an object, since other values are versions themselves.
    have slot : providerSlot? key (.mk around node) = some s := by
      cases found : providerSlot? key (.mk around node) <;> simp_all [providerShelf]
    have written : providerShelf.write (.single 0 v) (.attr layout key gap (.mk around node)) =
        .attr layout key gap ((Expr.mk around node).setProviderVersion v.toList) := by
      simp [providerShelf, Writes.single, writeProvider, slot]
    cases node with
    | object entries closing =>
      obtain rfl := Option.some.inj slot
      obtain ⟨-, -, laid⟩ := parsed
      rw [written]
      exact (encloses_value layout key gap around).clash
        (clash_setVersionEntry laid (Option.map_eq_none_iff.mp missing) v.toList)
    | text =>
      obtain rfl := Option.some.inj slot
      cases missing
    | _ => cases slot

/-- The text of a body up to the brace behind it. -/
def Hcl.Body.bracedChars (body : Body) : Chars :=
  body.innerChars ++ ['}']

theorem encloses_braced (layout : Layout) (word gap : Chars) (labels : List Label) :
    Encloses (fun body : Body =>
      (Structure.block layout word gap labels body.frame body.items).chars) Body.bracedChars :=
  ⟨layout.before.getD [] ++ word ++ gap ++ (labels.map Label.chars).flatten ++ ['{'],
    layout.after.getD [], fun body => by
      simp [Structure.chars, Layout.around, Body.innerChars, Body.bracedChars]⟩

/-- What is seen in the braces of a block is seen in the block. -/
theorem shows_block {layout : Layout} {word gap : Chars} {labels : List Label} {x y : Body}
    (h : Shows Body.bracedChars y x) :
    Shows Structure.chars (.block layout word gap labels y.frame y.items)
      (.block layout word gap labels x.frame x.items) := by
  refine h.imp (fun same => by rw [same]) fun clash => ?_
  have whole := (encloses_braced layout word gap labels).clash clash
  exact whole

theorem shows_body (frame : Frame) {items items' : List Structure}
    (h : List.Forall₂ (Shows Structure.chars) items' items) :
    Shows Body.bracedChars ⟨frame, items'⟩ ⟨frame, items⟩ :=
  (shows_items h frame).imp (congrArg (Body.mk frame)) fun clash => clash.append ['}'] ['}']

/-- A version that is written to a nested block is seen in its text. -/
theorem visible_nested : nestedShelf.Visible Structure.Parsed Structure.chars := by
  intro x p parsed plain
  cases x with
  | attr => exact .inl rfl
  | block layout word gap labels frame items =>
    by_cases listed : word = requiredProvidersWord
    · simp only [nestedShelf, Shelf.within, if_pos listed] at plain ⊢
      exact shows_block (shows_body frame (visible_provider.list parsed.inner plain))
    · simp only [nestedShelf, Shelf.within, if_neg listed]
      exact .inl rfl

/-- The inside of a block with blank space and words that are read as they are. -/
def Hcl.Body.Parsed (body : Body) : Prop :=
  ∃ layout word gap labels, (Structure.block layout word gap labels body.frame body.items).Parsed

theorem visible_attribute (kind : PinKind) (name : String) (key : List Structure → String)
    {word : Chars} (named : Named word) (keeps) :
    (attributeShelf kind name key word keeps).Visible Body.Parsed Body.bracedChars := by
  have braced : Encloses Body.bracedChars Body.innerChars := ⟨[], ['}'], fun _ => rfl⟩
  have replaces := replaces_attribute kind name key word keeps Body.bracedChars
    fun frame init rest => (braced.comp fun s => ⟨frame, init ++ s :: rest⟩).trans
      (encloses_items frame init rest)
  refine replaces.visible (fun _ => .inr ⟨_, rfl⟩) fun body s v inside one missing => ?_
  obtain ⟨frame, items⟩ := body
  obtain ⟨layout, word', gap, labels, parsed⟩ := inside
  obtain rfl := (List.cons.inj one).1
  have absent : valueAmong? word items = none := Option.map_eq_none_iff.mp missing
  simp only [attributeShelf, Writes.single, if_true,
    @setAttribute_of_none word ⟨frame, items⟩ absent, addAttribute_eq]
  refine clash_addAttribute parsed named absent v.toList fun lines => .inl ?_
  rw [spread_of_lines lines]

section Required

variable {frame : Frame} {items : List Structure} {q : Writes}
  (inside : (Body.mk frame items).Parsed) (nested : q.Plain (nestedSlots items))
include inside nested

/-- The version of `terraform` itself is added, and others are written. -/
theorem shows_added (missing : valueAmong? requiredVersionKey items = none) (value : Chars) :
    Shows Body.bracedChars
      (nestedBodyShelf.write q ((Body.mk frame items).setAttribute requiredVersionKey value))
      ⟨frame, items⟩ := by
  obtain ⟨layout, word, gap, labels, parsed⟩ := inside
  rw [setAttribute_of_none missing, addAttribute_eq, Body.added, write_nestedBody,
    writeNested_append_attr]
  -- The attribute shows unless a provider in front of it does.
  refine .inr (clash_addAttribute parsed named_requiredVersionKey missing value fun lines => ?_)
  have split := splitBehind_append Structure.isSource items
  rw [← split, nestedSlots, List.flatMap_append] at nested
  rw [spread_of_lines lines]
  refine shows_lines (visible_nested.list (fun s member => parsed.inner s ?_) nested.left) true
  rw [← split]
  exact List.mem_append_left _ member

/-- The version of `terraform` itself is replaced, and others are written. -/
theorem shows_replaced {e : Expr} (stands : valueAmong? requiredVersionKey items = some e)
    {s : Slot} (plain : s.Plain) (held : s.held = some e.node) (v : String) : Shows Body.bracedChars
      (nestedBodyShelf.write q ((Body.mk frame items).setAttribute requiredVersionKey v.toList))
      ⟨frame, items⟩ := by
  obtain ⟨layout, word, gap, labels, parsed⟩ := inside
  have each : ∀ s ∈ items, s.Parsed := parsed.inner
  obtain ⟨init, layout', gap', rest, rfl, changed⟩ := exists_attribute stands
  obtain ⟨around, node⟩ := e
  rw [nestedSlots_append_attr] at nested
  rw [List.forall_mem_append, List.forall_mem_cons] at each
  have here : Shows Structure.chars
      (.attr layout' requiredVersionKey gap' (.mk around (.text v.toList)))
      (.attr layout' requiredVersionKey gap' (.mk around node)) :=
    (clash_quotedVersion plain held v).imp (fun same : node = _ => by rw [same])
      fun clash => (encloses_value layout' requiredVersionKey gap' around).clash clash
  -- No structure is written twice, so the block is gone through structure by structure.
  rw [@setAttribute_of_some _ _ _ ⟨frame, _⟩ (changed v.toList), write_nestedBody,
    writeNested_append_attr]
  exact shows_body frame (List.rel_append (visible_nested.list each.1 nested.left)
    (.cons here (visible_nested.list each.2.2 nested.right)))

end Required

theorem visible_terraform : terraformShelf.Visible Body.Parsed Body.bracedChars := by
  rintro ⟨frame, items⟩ p inside plain
  have own : p.Plain (requiredShelf.slots ⟨frame, items⟩) := Writes.Plain.left plain
  have nested : (p.shift 1).Plain (nestedSlots items) := Writes.Plain.right plain
  show Shows Body.bracedChars
    (nestedBodyShelf.write (p.shift 1) (requiredShelf.write p ⟨frame, items⟩)) ⟨frame, items⟩
  rw [write_required]
  cases written : p 0 with
  | none =>
    obtain ⟨_, _, _, _, parsed⟩ := inside
    exact shows_body frame (visible_nested.list parsed.inner nested)
  | some v =>
    cases stands : valueAmong? requiredVersionKey items with
    | none => exact shows_added inside nested stands v.toList
    | some e =>
      exact shows_replaced inside nested stands (own 0 _ v rfl written)
        (by simp [attributeSlot, stands]) v

/-- A version that is written to a structure is seen in its text, whatever the structure is. -/
theorem visible_structure : structureShelf.Visible Structure.Parsed Structure.chars := by
  intro x p parsed plain
  cases x with
  | attr => exact .inl rfl
  | block layout word gap labels frame items =>
    have inside : (Body.mk frame items).Parsed := ⟨layout, word, gap, labels, parsed⟩
    by_cases isModule : word = moduleWord
    · simp only [structureShelf, Shelf.within, if_pos isModule] at plain ⊢
      exact shows_block (visible_attribute _ _ _ named_versionKey _ _ p inside plain)
    · by_cases isTerraform : word = terraformWord
      · simp only [structureShelf, Shelf.within, if_neg isModule, if_pos isTerraform] at plain ⊢
        exact shows_block (visible_terraform _ p inside plain)
      · simp only [structureShelf, Shelf.within, if_neg isModule, if_neg isTerraform]
        exact .inl rfl

end TerraformPins
