import TerraformPins.Proofs.Slot

/-!
# The slot of an attribute

The version of a module or of `terraform` itself is an attribute of a block. An attribute that is
missing is put behind the source of the block or in front of everything else, and a block on one
line is spread over lines before that. None of this changes what another attribute says, and nothing
but the values of attributes and the layout of a block on one line depends on it.

## Main definitions

* `splitBehind` — where an item is inserted
* `attributeShelf` — blocks with the version in an attribute as values that hold one slot

## Main results

* `setAttribute_setAttribute` — the second of two versions counts, also if the first one was added
* `valueAmong?_setAttribute` — the version that is written is the one that is read
* `valueAmong?_setAttribute_of_ne` — other attributes say what they said before
* `flatMap_setAttribute` — what is gathered from the blocks does not depend on the attributes
-/

namespace TerraformPins

open Hcl Document

namespace Hcl

variable {key other value : Chars} {items changed : List Structure}

/-- The value of the attribute `key` among the items of a block. -/
def valueAmong? (key : Chars) (items : List Structure) : Option Expr :=
  items.findSome? (·.valueOf? key)

@[simp] theorem valueAmong?_nil (key : Chars) : valueAmong? key [] = none := rfl

/-- The value of a key is that of the first structure that has one. -/
theorem valueAmong?_cons (key : Chars) (s : Structure) (rest : List Structure) :
    valueAmong? key (s :: rest) = (s.valueOf? key).or (valueAmong? key rest) := by
  unfold valueAmong?
  rw [List.findSome?_cons]
  cases s.valueOf? key <;> rfl

/-- The value of a key among two rows of structures is in the first row if there is one. -/
theorem valueAmong?_append (key : Chars) (items more : List Structure) :
    valueAmong? key (items ++ more) = (valueAmong? key items).or (valueAmong? key more) := by
  unfold valueAmong?
  rw [List.findSome?_append]

@[simp] theorem valueOf?_withLayout (key : Chars) (layout : Layout) (s : Structure) :
    (s.withLayout layout).valueOf? key = s.valueOf? key := by
  cases s <;> rfl

/-- The value of a key does not depend on where the structures stand. -/
theorem valueAmong?_withLayout (key : Chars) (layout : Layout) (items : List Structure) :
    valueAmong? key (items.map (·.withLayout layout)) = valueAmong? key items := by
  induction items with
  | nil => rfl
  | cons s rest ih => simp [valueAmong?_cons, ih]

/-- A value is exchanged exactly if there is one. -/
theorem retextAttribute?_eq_none_iff :
    retextAttribute? key value items = none ↔ valueAmong? key items = none := by
  induction items with
  | nil => simp [retextAttribute?]
  | cons s rest ih =>
    rw [valueAmong?_cons]
    cases s with
    | block => simp [retextAttribute?, Structure.valueOf?, ih]
    | attr layout k gap e =>
      rw [retextAttribute?, Structure.valueOf?]
      split <;> simp_all

/-- The exchanged value is what is there afterwards. -/
theorem valueAmong?_retextAttribute? (h : retextAttribute? key value items = some changed) :
    valueAmong? key changed = (valueAmong? key items).map (·.retext value) := by
  induction items generalizing changed with
  | nil => simp [retextAttribute?] at h
  | cons s rest ih =>
    rw [valueAmong?_cons]
    cases s with
    | block =>
      obtain ⟨rest', inner, rfl⟩ := Option.map_eq_some_iff.mp h
      simp [valueAmong?_cons, Structure.valueOf?, ih inner]
    | attr layout k gap e =>
      rw [retextAttribute?] at h
      split at h
      case isTrue same =>
        obtain rfl := Option.some.inj h
        simp [valueAmong?_cons, Structure.valueOf?, same]
      case isFalse differs =>
        obtain ⟨rest', inner, rfl⟩ := Option.map_eq_some_iff.mp h
        simp [valueAmong?_cons, Structure.valueOf?, differs, ih inner]

/-- The values of other keys stay. -/
theorem valueAmong?_retextAttribute?_of_ne (ne : other ≠ key)
    (h : retextAttribute? key value items = some changed) :
    valueAmong? other changed = valueAmong? other items := by
  induction items generalizing changed with
  | nil => simp [retextAttribute?] at h
  | cons s rest ih =>
    cases s with
    | block =>
      obtain ⟨rest', inner, rfl⟩ := Option.map_eq_some_iff.mp h
      simp [valueAmong?_cons, ih inner]
    | attr layout k gap e =>
      rw [retextAttribute?] at h
      split at h
      case isTrue same =>
        obtain rfl := Option.some.inj h
        have differs : k ≠ other := by
          rw [same]
          exact ne.symm
        simp [valueAmong?_cons, Structure.valueOf?, differs]
      case isFalse =>
        obtain ⟨rest', inner, rfl⟩ := Option.map_eq_some_iff.mp h
        simp [valueAmong?_cons, ih inner]

/-- Of two exchanges the second one counts. -/
theorem retextAttribute?_retextAttribute? (second : Chars)
    (h : retextAttribute? key value items = some changed) :
    retextAttribute? key second changed = retextAttribute? key second items := by
  induction items generalizing changed with
  | nil => simp [retextAttribute?] at h
  | cons s rest ih =>
    cases s with
    | block =>
      obtain ⟨rest', inner, rfl⟩ := Option.map_eq_some_iff.mp h
      simp [retextAttribute?, ih inner]
    | attr layout k gap e =>
      rw [retextAttribute?] at h
      split at h
      case isTrue same =>
        obtain rfl := Option.some.inj h
        simp [retextAttribute?, same, Expr.retext, Expr.layout]
      case isFalse differs =>
        obtain ⟨rest', inner, rfl⟩ := Option.map_eq_some_iff.mp h
        simp [retextAttribute?, differs, ih inner]

/-- Exchanging a value for itself changes nothing. -/
theorem retextAttribute?_eq_self {e : Expr} (found : valueAmong? key items = some e)
    (same : e.node = .text value) : retextAttribute? key value items = some items := by
  induction items with
  | nil => simp at found
  | cons s rest ih =>
    rw [valueAmong?_cons] at found
    cases s with
    | block =>
      simp only [Structure.valueOf?, Option.none_or] at found
      simp [retextAttribute?, ih found]
    | attr layout k gap e' =>
      rw [Structure.valueOf?] at found
      rw [retextAttribute?]
      split at found
      case isTrue here =>
        obtain rfl := Option.some.inj found
        obtain ⟨_, node⟩ := e'
        simp only [Expr.node] at same
        subst same
        simp [here, Expr.retext, Expr.layout]
      case isFalse differs =>
        simp only [Option.none_or] at found
        simp [differs, ih found]

/-- A value is exchanged behind structures without the key. -/
theorem retextAttribute?_append_of_none (missing : valueAmong? key items = none)
    (more : List Structure) :
    retextAttribute? key value (items ++ more) =
      (retextAttribute? key value more).map (items ++ ·) := by
  induction items with
  | nil => simp
  | cons s rest ih =>
    rw [valueAmong?_cons, Option.or_eq_none_iff] at missing
    obtain ⟨here, behind⟩ := missing
    cases s with
    | block => simp [retextAttribute?, ih behind, Function.comp_def]
    | attr layout k gap e =>
      have differs : k ≠ key := by
        intro same
        simp [Structure.valueOf?, same] at here
      simp [retextAttribute?, differs, ih behind, Function.comp_def]

/-- What holds of all items still does when an attribute is exchanged, if it does not depend on its
value. -/
theorem forall_retextAttribute? {Q : Structure → Prop}
    (exchange : ∀ layout k gap e, Q (.attr layout k gap e) →
      Q (.attr layout k gap (e.retext value)))
    (h : retextAttribute? key value items = some changed) (each : ∀ s ∈ items, Q s) :
    ∀ s ∈ changed, Q s := by
  induction items generalizing changed with
  | nil => cases h
  | cons s rest ih =>
    rw [List.forall_mem_cons] at each
    cases s with
    | block =>
      obtain ⟨rest', inner, rfl⟩ := Option.map_eq_some_iff.mp h
      exact List.forall_mem_cons.mpr ⟨each.1, ih inner each.2⟩
    | attr layout k gap e =>
      rw [retextAttribute?] at h
      split at h
      case isTrue =>
        obtain rfl := Option.some.inj h
        exact List.forall_mem_cons.mpr ⟨exchange layout k gap e each.1, each.2⟩
      case isFalse =>
        obtain ⟨rest', inner, rfl⟩ := Option.map_eq_some_iff.mp h
        exact List.forall_mem_cons.mpr ⟨each.1, ih inner each.2⟩

/-- The members up to the first one that satisfies `p`, and those behind it. -/
def splitBehind (p : α → Bool) (items : List α) : List α × List α :=
  match items.findIdx? p with
  | some i => (items.take (i + 1), items.drop (i + 1))
  | none => ([], items)

/-- Something is put between the two parts into which its place divides the list. -/
theorem insertBehind_eq (p : α → Bool) (item : α) (items : List α) :
    insertBehind p item items = (splitBehind p items).1 ++ item :: (splitBehind p items).2 := by
  unfold insertBehind splitBehind
  cases items.findIdx? p <;> rfl

/-- The two parts together are the list. -/
theorem splitBehind_append (p : α → Bool) (items : List α) :
    (splitBehind p items).1 ++ (splitBehind p items).2 = items := by
  unfold splitBehind
  cases items.findIdx? p with
  | none => rfl
  | some i => exact List.take_append_drop _ _

/-- The attribute that is added to a body. -/
def Body.added (body : Body) (key value : Chars) : Structure :=
  .attr ⟨some ((body.spread.items.findSome? fun s => s.layout.indentation?).getD standardIndent),
    none⟩ key none (.mk {} (.text value))

theorem addAttribute_items (body : Body) (key value : Chars) :
    (body.addAttribute key value).items =
      (splitBehind Structure.isSource body.spread.items).1 ++ body.added key value ::
        (splitBehind Structure.isSource body.spread.items).2 :=
  insertBehind_eq _ _ _

/-- What holds of the items of a block that is spread and of the added attribute holds of all. -/
theorem forall_addAttribute {Q : Structure → Prop} {body : Body}
    (each : ∀ s ∈ body.spread.items, Q s) (added : Q (body.added key value)) :
    ∀ s ∈ (body.addAttribute key value).items, Q s := by
  intro s member
  rw [addAttribute_items] at member
  rcases List.mem_cons.mp (List.perm_middle.mem_iff.mp member) with rfl | inside
  · exact added
  · rw [splitBehind_append] at inside
    exact each s inside

theorem addAttribute_frame (body : Body) (key value : Chars) :
    (body.addAttribute key value).frame = body.spread.frame := rfl

/-- A body with an added attribute, spread over lines if it was on one. -/
theorem addAttribute_eq (body : Body) (key value : Chars) : body.addAttribute key value =
    ⟨body.spread.frame, (splitBehind Structure.isSource body.spread.items).1 ++
      body.added key value :: (splitBehind Structure.isSource body.spread.items).2⟩ :=
  congrArg (Body.mk body.spread.frame) (addAttribute_items body key value)

theorem spread_of_lines {body : Body} (lines : body.frame.oneLine = false) :
    body.spread = body := by
  rw [Body.spread, if_neg (by simpa using lines)]

/-- Spreading a body over lines changes no values. -/
theorem valueAmong?_spread (body : Body) (key : Chars) :
    valueAmong? key body.spread.items = valueAmong? key body.items := by
  unfold Body.spread
  split
  · exact valueAmong?_withLayout _ _ _
  · rfl

/-- An attribute that is missing is missing on both sides of the place where it is inserted. -/
theorem valueAmong?_splitBehind {body : Body} (missing : valueAmong? key body.items = none) :
    valueAmong? key (splitBehind Structure.isSource body.spread.items).1 = none ∧
      valueAmong? key (splitBehind Structure.isSource body.spread.items).2 = none := by
  rw [← valueAmong?_spread, ← splitBehind_append Structure.isSource body.spread.items,
    valueAmong?_append, Option.or_eq_none_iff] at missing
  exact missing

/-- A version is added where there is none. -/
theorem setAttribute_of_none {body : Body} (missing : valueAmong? key body.items = none)
    (value : Chars) : body.setAttribute key value = body.addAttribute key value := by
  rw [Body.setAttribute, retextAttribute?_eq_none_iff.mpr missing]

/-- A version is exchanged where there is one. -/
theorem setAttribute_of_some {body : Body}
    (h : retextAttribute? key value body.items = some changed) :
    body.setAttribute key value = { body with items := changed } := by
  rw [Body.setAttribute, h]

/-- The second of two versions counts, also if the first one was added. -/
theorem setAttribute_setAttribute (body : Body) (key first second : Chars) :
    (body.setAttribute key first).setAttribute key second = body.setAttribute key second := by
  cases written : retextAttribute? key first body.items with
  | some changed =>
    have again := retextAttribute?_retextAttribute? second written
    rw [setAttribute_of_some written]
    cases rewritten : retextAttribute? key second body.items with
    | some more =>
      rw [rewritten] at again
      have both :
          retextAttribute? key second { body with items := changed : Body }.items = some more :=
        again
      rw [setAttribute_of_some rewritten, setAttribute_of_some both]
    | none =>
      rw [retextAttribute?_eq_none_iff] at rewritten
      rw [retextAttribute?_eq_none_iff.mpr rewritten] at written
      cases written
  | none =>
    have missing := retextAttribute?_eq_none_iff.mp written
    rw [setAttribute_of_none missing, setAttribute_of_none missing]
    -- The added attribute is the first one with the key, so the second write meets it.
    have found : retextAttribute? key second (body.addAttribute key first).items =
        some (body.addAttribute key second).items := by
      rw [addAttribute_items, addAttribute_items,
        retextAttribute?_append_of_none (valueAmong?_splitBehind missing).1]
      simp [Body.added, retextAttribute?, Expr.retext, Expr.layout]
    rw [setAttribute_of_some found]
    rfl

/-- The layout in which the value of an attribute stands or will stand. -/
def attributePlace (key : Chars) (items : List Structure) : Layout :=
  match valueAmong? key items with
  | some e => e.layout
  | none => {}

/-- The version that was set is there. -/
theorem valueAmong?_setAttribute (body : Body) (key value : Chars) :
    valueAmong? key (body.setAttribute key value).items =
      some (.mk (attributePlace key body.items) (.text value)) := by
  unfold attributePlace
  cases found : valueAmong? key body.items with
  | none =>
    rw [setAttribute_of_none found, addAttribute_items, valueAmong?_append,
      (valueAmong?_splitBehind found).1, valueAmong?_cons]
    simp [Body.added, Structure.valueOf?]
  | some e =>
    cases written : retextAttribute? key value body.items with
    | none => simp [retextAttribute?_eq_none_iff.mp written] at found
    | some changed =>
      rw [setAttribute_of_some written, valueAmong?_retextAttribute? written, found]
      rfl

/-- The values of other keys stay when a version is set. -/
theorem valueAmong?_setAttribute_of_ne (body : Body) (ne : other ≠ key) (value : Chars) :
    valueAmong? other (body.setAttribute key value).items = valueAmong? other body.items := by
  cases found : valueAmong? key body.items with
  | none =>
    have differs : (body.added key value).valueOf? other = none := by
      simp [Body.added, Structure.valueOf?, ne.symm]
    rw [setAttribute_of_none found, addAttribute_items, valueAmong?_append, valueAmong?_cons,
      differs, Option.none_or, ← valueAmong?_append, splitBehind_append, valueAmong?_spread]
  | some e =>
    cases written : retextAttribute? key value body.items with
    | none => simp [retextAttribute?_eq_none_iff.mp written] at found
    | some changed =>
      rw [setAttribute_of_some written]
      exact valueAmong?_retextAttribute?_of_ne ne written

section Gathered

variable {β : Type} {f : Structure → List β}
  (attr : ∀ layout k gap e, f (.attr layout k gap e) = [])
include attr

/-- What is gathered from structures other than this attribute stays when its value is exchanged. -/
theorem flatMap_retextAttribute? (h : retextAttribute? key value items = some changed) :
    changed.flatMap f = items.flatMap f := by
  induction items generalizing changed with
  | nil => cases h
  | cons s rest ih =>
    cases s with
    | block =>
      obtain ⟨rest', inner, rfl⟩ := Option.map_eq_some_iff.mp h
      rw [List.flatMap_cons, List.flatMap_cons, ih inner]
    | attr layout k gap e =>
      rw [retextAttribute?] at h
      split at h
      case isTrue =>
        obtain rfl := Option.some.inj h
        rw [List.flatMap_cons, List.flatMap_cons, attr, attr]
      case isFalse =>
        obtain ⟨rest', inner, rfl⟩ := Option.map_eq_some_iff.mp h
        rw [List.flatMap_cons, List.flatMap_cons, ih inner]

/-- What is gathered from the blocks in a block, whatever their layout, does not depend on its
attributes. -/
theorem flatMap_setAttribute (layouts : ∀ layout s, f (s.withLayout layout) = f s) (body : Body)
    (key value : Chars) : (body.setAttribute key value).items.flatMap f = body.items.flatMap f := by
  cases written : retextAttribute? key value body.items with
  | some changed =>
    rw [setAttribute_of_some written]
    exact flatMap_retextAttribute? attr written
  | none =>
    have spread : body.spread.items.flatMap f = body.items.flatMap f := by
      unfold Body.spread
      split
      · simp only [List.flatMap_map, layouts]
      · rfl
    rw [setAttribute_of_none (retextAttribute?_eq_none_iff.mp written), addAttribute_items,
      List.flatMap_append, List.flatMap_cons, Body.added, attr, List.nil_append,
      ← List.flatMap_append, splitBehind_append, spread]

end Gathered

/-- Setting the version that is there changes nothing. -/
theorem setAttribute_eq_self {body : Body} {e : Expr} (found : valueAmong? key body.items = some e)
    (same : e.node = .text value) : body.setAttribute key value = body := by
  rw [setAttribute_of_some (retextAttribute?_eq_self found same)]

end Hcl

/-- The slot of the attribute `word`, for a pin of the given kind, name and key. -/
def attributeSlot (kind : PinKind) (name key : String) (word : Chars)
    (items : List Structure) : Slot where
  kind := kind
  name := name
  key := key
  source := none
  exposed := false
  place := attributePlace word items
  held := (valueAmong? word items).map Expr.node
  held_eq_none := nofun

theorem site_attributeSlot (kind : PinKind) (name key : String) (word : Chars)
    (items : List Structure) :
    (attributeSlot kind name key word items).site =
      .ofValue kind name key none (valueAmong? word items) := by
  simp only [Slot.site, attributeSlot, Option.map_map]
  congr 1
  unfold attributePlace
  cases found : valueAmong? word items with
  | none => rfl
  | some e => cases e; rfl

/-- Setting the version of a body writes to its slot. -/
theorem attributeSlot_setAttribute (kind : PinKind) (name key version : String) (word : Chars)
    (body : Body) :
    attributeSlot kind name key word (body.setAttribute word version.toList).items =
      (attributeSlot kind name key word body.items).write version := by
  have stands := valueAmong?_setAttribute body word version.toList
  have place : attributePlace word (body.setAttribute word version.toList).items =
      attributePlace word body.items := by
    rw [attributePlace, stands]
    rfl
  simp [attributeSlot, Slot.write, Slot.settled, stands, place, Expr.node]

/-- A block with its version in an attribute. The key of its pin does not depend on this
attribute. -/
def attributeShelf (kind : PinKind) (name : String) (key : List Structure → String)
    (word : Chars)
    (keeps : ∀ (body : Body) value, key (body.setAttribute word value).items = key body.items) :
    Shelf Body where
  slots body := [attributeSlot kind name (key body.items) word body.items]
  write p body := match p 0 with
    | none => body
    | some version => body.setAttribute word version.toList
  walk visit s body :=
    walkAttribute visit s
      (attributeSlot kind name (key body.items) word body.items).site word body
  slots_write p body := by
    cases written : p 0 with
    | none => simp [written]
    | some version => simp [written, keeps, attributeSlot_setAttribute]
  write_write p q body := by
    cases first : p 0 <;> cases second : q 0 <;>
      simp [first, second, setAttribute_setAttribute]
  write_eq_self p body h := by
    cases written : p 0 with
    | none => rfl
    | some version =>
      have held := h 0 _ version rfl written
      obtain ⟨e, found, same⟩ := Option.map_eq_some_iff.mp held
      exact setAttribute_eq_self found same
  write_congr p q body h := by
    rw [h 0 (by simp)]
  walk_eq visit s body := by
    simp only [walkAttribute, choices_singleton, Writes.ofList_cons_zero]
    split <;> simp_all

end TerraformPins
