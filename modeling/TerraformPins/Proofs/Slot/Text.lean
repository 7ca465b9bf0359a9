import TerraformPins.Proofs.Slot.Document

/-!
# Where a version stands in the text

A slot that holds a version stands for one stretch of the text of the document: the text of the
version without its layout. Writing another version replaces this stretch and nothing else. On every
level of the tree the text of a whole encloses the texts of its parts, so the stretch is found from
the leaves upwards.

## Main definitions

* `Encloses` — the text of a whole is the text of a part between two fixed texts
* `Shelf.Replaces` — a write at a slot that holds a version replaces one stretch of the text

## Main results

* `Document.replaces` — this holds for documents
-/

namespace TerraformPins

open Hcl Document

/-- The text of a whole is the text of a part between two fixed texts. -/
def Encloses (whole part : α → Chars) : Prop :=
  ∃ before after, ∀ x, whole x = before ++ part x ++ after

/-- A part of a part is a part of the whole. -/
theorem Encloses.trans {whole middle part : α → Chars} (outer : Encloses whole middle)
    (inner : Encloses middle part) : Encloses whole part := by
  obtain ⟨before, after, split⟩ := outer
  obtain ⟨before', after', split'⟩ := inner
  exact ⟨before ++ before', after' ++ after, fun x => by simp [split, split']⟩

/-- A part stays one if the values come from others. -/
theorem Encloses.comp {whole part : α → Chars} (h : Encloses whole part) (f : β → α) :
    Encloses (fun x => whole (f x)) fun x => part (f x) := by
  obtain ⟨before, after, split⟩ := h
  exact ⟨before, after, fun x => split (f x)⟩

/-- The text of a version. -/
def quotedVersion (version : String) : Chars :=
  (Node.text version.toList).chars

/-- A write to other numbers leaves the slots alone. -/
theorem Writes.repeats_of_none {p : Writes} {slots : List Slot}
    (h : ∀ i < slots.length, p i = none) : p.Repeats slots := by
  intro i s v found written
  rw [h i (List.getElem?_eq_some_iff.mp found).1] at written
  cases written

/-- A write to one number, seen from a number in front of it. -/
theorem Writes.shift_single_of_le {i n : Nat} (h : n ≤ i) (v : String) :
    (Writes.single i v).shift n = Writes.single (i - n) v := by
  funext j
  simp only [Writes.shift_apply, Writes.single]
  congr 1
  simp only [eq_iff_iff]
  omega

/-- A write behind the last slot leaves all slots alone. -/
theorem Writes.repeats_single_of_le {i : Nat} {slots : List Slot} (h : slots.length ≤ i)
    (v : String) : (Writes.single i v).Repeats slots :=
  repeats_of_none fun j bound => if_neg (by omega)

theorem Writes.repeats_shift_single_of_lt {i n : Nat} (h : i < n) (slots : List Slot) (v : String) :
    ((Writes.single i v).shift n).Repeats slots :=
  repeats_of_none fun j _ => if_neg (by omega)

namespace Shelf

variable {α β : Type}

/-- A write at the only slot of a value. -/
theorem write_eq_single (S : Shelf α) {x : α} {s : Slot} {p : Writes} {v : String}
    (one : S.slots x = [s]) (written : p 0 = some v) : S.write p x = S.write (.single 0 v) x := by
  refine S.write_congr _ _ x fun i bound => ?_
  obtain rfl : i = 0 := by simpa [one] using bound
  rw [written]
  rfl

/-- A write at a slot that holds a version replaces one stretch of the text. -/
def Replaces (S : Shelf α) (chars : α → Chars) : Prop :=
  ∀ x i slot node, (S.slots x)[i]? = some slot → slot.held = some node →
    ∃ before after, chars x = before ++ node.chars ++ after ∧
      ∀ v, chars (S.write (.single i v) x) = before ++ quotedVersion v ++ after

/-- A slot of a list is a slot of one member, and a write there changes this member only. -/
theorem exists_member {S : Shelf α} {xs : List α} {i : Nat} {slot : Slot}
    (found : (S.list.slots xs)[i]? = some slot) :
    ∃ init x rest j, xs = init ++ x :: rest ∧ (S.slots x)[j]? = some slot ∧
      ∀ v, S.list.write (.single i v) xs = init ++ S.write (.single j v) x :: rest := by
  simp only [Shelf.list] at found ⊢
  induction xs generalizing i with
  | nil => simp at found
  | cons x xs ih =>
    rw [List.flatMap_cons] at found
    rcases Nat.lt_or_ge i (S.slots x).length with here | behind
    · rw [List.getElem?_append_left here] at found
      refine ⟨[], x, xs, i, rfl, found, fun v => ?_⟩
      rw [writeList, List.nil_append]
      congr 1
      exact S.list.write_eq_self _ xs (Writes.repeats_shift_single_of_lt here _ v)
    · rw [List.getElem?_append_right behind] at found
      obtain ⟨init, y, rest, j, rfl, inside, written⟩ := ih found
      refine ⟨x :: init, y, rest, j, rfl, inside, fun v => ?_⟩
      rw [writeList, S.write_eq_self _ x (Writes.repeats_single_of_le behind v),
        Writes.shift_single_of_le behind, written]
      rfl

/-- Texts of lists are written in one place if those of their members are. -/
theorem Replaces.list {S : Shelf α} {chars : α → Chars} (h : S.Replaces chars)
    {all : List α → Chars}
    (encloses : ∀ init rest, Encloses (fun x => all (init ++ x :: rest)) chars) :
    S.list.Replaces all := by
  intro xs i slot node found held
  obtain ⟨init, x, rest, j, rfl, inside, written⟩ := exists_member found
  obtain ⟨before, after, now, later⟩ := h x j slot node inside held
  obtain ⟨front, back, split⟩ := encloses init rest
  refine ⟨front ++ before, after ++ back, ?_, fun v => ?_⟩
  · simp only [split, now, List.append_assoc]
  · simp only [written, split, later, List.append_assoc]

theorem Replaces.both {A B : Shelf α} {chars : α → Chars} (left : A.Replaces chars)
    (right : B.Replaces chars) (slots_left slots_right comm) :
    (Shelf.both A B slots_left slots_right comm).Replaces chars := by
  intro x i slot node found held
  simp only [Shelf.both] at found ⊢
  rcases Nat.lt_or_ge i (A.slots x).length with here | behind
  · rw [List.getElem?_append_left here] at found
    obtain ⟨before, after, now, later⟩ := left x i slot node found held
    refine ⟨before, after, now, fun v => ?_⟩
    rw [B.write_eq_self _ _ (Writes.repeats_shift_single_of_lt here _ v), later]
  · rw [List.getElem?_append_right behind] at found
    obtain ⟨before, after, now, later⟩ := right x _ slot node found held
    refine ⟨before, after, now, fun v => ?_⟩
    rw [A.write_eq_self _ x (Writes.repeats_single_of_le behind v),
      Writes.shift_single_of_le behind, later]

theorem Replaces.within {pick : α → Option (Shelf β)} {get : α → β} {set : β → α → α}
    (pick_set get_set) (set_get : ∀ x, set (get x) x = x) (set_set) {chars : α → Chars}
    (h : ∀ x S, pick x = some S →
      ∃ part, S.Replaces part ∧ Encloses (fun b => chars (set b x)) part) :
    (Shelf.within pick get set pick_set get_set set_get set_set).Replaces chars := by
  intro x i slot node found held
  simp only [Shelf.within] at found ⊢
  cases picked : pick x with
  | none => simp [picked] at found
  | some S =>
    simp only [picked] at found
    obtain ⟨part, replaces, front, back, split⟩ := h x S picked
    obtain ⟨before, after, now, later⟩ := replaces (get x) i slot node found held
    refine ⟨front ++ before, after ++ back, ?_, fun v => ?_⟩
    · have whole := split (get x)
      simp only [set_get] at whole
      simp only [whole, now, List.append_assoc]
    · simp only [split, later, List.append_assoc]

end Shelf

namespace Hcl

/-- The text of an expression encloses the text of what it says. -/
theorem encloses_node (before : Chars) (layout : Layout) :
    Encloses (fun node => Expr.chars before (.mk layout node)) Node.chars :=
  ⟨layout.before.getD before, layout.after.getD [], fun node => by
    simp [Expr.chars, Layout.around]⟩

/-- The value of an attribute is a part of its text. -/
theorem encloses_attr (layout : Layout) (key : Chars) (gap : Option Chars) :
    Encloses (fun value => (Structure.attr layout key gap value).chars) (Expr.chars [' ']) :=
  ⟨layout.before.getD [] ++ key ++ gap.getD [' '] ++ ['='], layout.after.getD [], fun value => by
    simp [Structure.chars, Layout.around]⟩

theorem encloses_value (layout : Layout) (key : Chars) (gap : Option Chars) (around : Layout) :
    Encloses (fun node => (Structure.attr layout key gap (.mk around node)).chars) Node.chars :=
  ((encloses_attr layout key gap).comp _).trans (encloses_node [' '] around)

theorem encloses_entry (key : Expr) (sign : Sign) (stop : Stop) :
    Encloses (fun value => (Entry.mk key sign value stop).chars) (Expr.chars [' ']) :=
  ⟨entryKeyChars key ++ sign.chars, stop.chars, fun value => by simp [Entry.chars]⟩

/-- An entry is a part of the text of the entries. -/
theorem encloses_entries (init rest : List Entry) :
    Encloses (fun e => entriesChars (init ++ e :: rest)) Entry.chars := by
  induction init with
  | nil => exact ⟨[], entriesChars rest, fun e => by simp [entriesChars]⟩
  | cons first init ih =>
    obtain ⟨before, after, split⟩ := ih
    exact ⟨first.chars ++ before, after, fun e => by simp [entriesChars, split]⟩

theorem encloses_object (closing : Chars) :
    Encloses (fun entries => (Node.object entries closing).chars) entriesChars :=
  ⟨['{'], closing ++ ['}'], fun entries => by simp [Node.chars]⟩

theorem encloses_row (init rest : List Structure) :
    Encloses (fun s => rowChars (init ++ s :: rest)) Structure.chars := by
  induction init with
  | nil => exact ⟨[], rowChars rest, fun s => by simp [rowChars]⟩
  | cons first init ih =>
    obtain ⟨before, after, split⟩ := ih
    exact ⟨first.chars ++ before, after, fun s => by simp [rowChars, split]⟩

theorem encloses_lines (ends : Bool) (init rest : List Structure) :
    Encloses (fun s => linesChars ends (init ++ s :: rest)) Structure.chars := by
  induction init with
  | nil =>
    refine ⟨[], (if rest.isEmpty ∧ ¬ ends then [] else ['\n']) ++ linesChars ends rest, fun s => ?_⟩
    simp [linesChars]
  | cons first init ih =>
    obtain ⟨before, after, split⟩ := ih
    exact ⟨first.chars ++ '\n' :: before, after, fun s => by simp [linesChars, split]⟩

/-- The text between the braces of a block. -/
def Body.innerChars (body : Body) : Chars :=
  body.frame.opening ++
    (if body.frame.oneLine then rowChars body.items
      else '\n' :: linesChars body.frame.lastLineEnds body.items) ++
    body.frame.closing

/-- What is between the braces is a part of the text of a block. -/
theorem encloses_inner (layout : Layout) (word gap : Chars) (labels : List Label) :
    Encloses (fun body : Body =>
      (Structure.block layout word gap labels body.frame body.items).chars) Body.innerChars :=
  ⟨layout.before.getD [] ++ word ++ gap ++ (labels.map Label.chars).flatten ++ ['{'],
    '}' :: layout.after.getD [], fun body => by
      simp [Structure.chars, Layout.around, Body.innerChars]⟩

/-- The text of a block encloses the texts of its structures. -/
theorem encloses_items (frame : Frame) (init rest : List Structure) :
    Encloses (fun s => Body.innerChars ⟨frame, init ++ s :: rest⟩) Structure.chars := by
  have middle : Encloses (fun s => Body.innerChars ⟨frame, init ++ s :: rest⟩) fun s =>
      if frame.oneLine then rowChars (init ++ s :: rest)
      else '\n' :: linesChars frame.lastLineEnds (init ++ s :: rest) :=
    ⟨frame.opening, frame.closing, fun s => rfl⟩
  refine middle.trans ?_
  cases frame.oneLine with
  | true => exact encloses_row init rest
  | false =>
    obtain ⟨before, after, split⟩ := encloses_lines frame.lastLineEnds init rest
    exact ⟨'\n' :: before, after, fun s => by simp [split]⟩

/-- A structure is a part of the text of a body. -/
theorem encloses_body (frame : Frame) (init rest : List Structure) :
    Encloses (fun s => Body.chars ⟨frame, init ++ s :: rest⟩) Structure.chars := by
  obtain ⟨before, after, split⟩ := encloses_lines frame.lastLineEnds init rest
  exact ⟨before, after ++ frame.closing, fun s => by simp [Body.chars, split]⟩

variable {key : Chars} {e : Expr}

/-- The value under a key stands in one entry, and writing it changes this entry only. -/
theorem exists_entry {entries : List Entry} (found : valueAt? key entries = some e) :
    ∃ init k sign stop rest, entries = init ++ .mk k sign e stop :: rest ∧
      ∀ value, retextAt? key value entries = some
      (init ++ .mk k sign (e.retext value) stop :: rest) := by
  induction entries with
  | nil => cases found
  | cons entry rest ih =>
    rw [valueAt?_cons] at found
    -- The search for reading and the one for writing stop at the same entry.
    split at found
    case isTrue here =>
      obtain rfl := Option.some.inj found
      refine ⟨[], entry.key, entry.sign, entry.stop, rest, ?_, fun value => ?_⟩
      · cases entry
        rfl
      · rw [retextAt?, if_pos here]
        rfl
    case isFalse differs =>
      obtain ⟨init, k, sign, stop, rest', rfl, written⟩ := ih found
      refine ⟨entry :: init, k, sign, stop, rest', rfl, fun value => ?_⟩
      rw [retextAt?, if_neg differs, written]
      rfl

/-- The value of an attribute stands in one structure, and writing it changes this structure
only. -/
theorem exists_attribute {items : List Structure} (found : valueAmong? key items = some e) :
    ∃ init layout gap rest, items = init ++ .attr layout key gap e :: rest ∧
      ∀ value, retextAttribute? key value items =
        some (init ++ .attr layout key gap (e.retext value) :: rest) := by
  induction items with
  | nil => cases found
  | cons s rest ih =>
    rw [valueAmong?_cons] at found
    -- The search for reading and the one for writing stop at the same attribute.
    cases s with
    | block layout word gap labels frame inner =>
      obtain ⟨init, layout', gap', rest', rfl, written⟩ := ih found
      exact ⟨.block layout word gap labels frame inner :: init, layout', gap', rest', rfl,
        fun value => by simp [retextAttribute?, written]⟩
    | attr layout k gap value =>
      rw [Structure.valueOf?] at found
      split at found
      case isTrue same =>
        obtain rfl := Option.some.inj found
        subst same
        exact ⟨[], layout, gap, rest, rfl, fun value => by simp [retextAttribute?]⟩
      case isFalse differs =>
        obtain ⟨init, layout', gap', rest', rfl, written⟩ := ih found
        refine ⟨.attr layout k gap value :: init, layout', gap', rest', rfl, fun text => ?_⟩
        rw [retextAttribute?, if_neg differs, written]
        rfl

end Hcl

/-- An entry has one slot or none. -/
theorem slots_provider (x : Structure) :
    providerShelf.slots x = [] ∨ ∃ s, providerShelf.slots x = [s] := by
  cases x with
  | block => exact .inl rfl
  | attr layout key gap value =>
    simp only [providerShelf]
    cases providerSlot? key value with
    | none => exact .inl rfl
    | some s => exact .inr ⟨s, rfl⟩

/-- The version in the value of a provider entry is one stretch of the text of the value. -/
theorem replaces_providerValue {key : Chars} {value : Expr} {slot : Slot} {node : Node}
    (here : providerSlot? key value = some slot) (held : slot.held = some node) :
    ∃ before after, value.chars [' '] = before ++ node.chars ++ after ∧
      ∀ v : String, (value.setProviderVersion v.toList).chars [' '] =
        before ++ quotedVersion v ++ after := by
  obtain ⟨around, content⟩ := value
  cases content with
  | object entries closing =>
    obtain rfl := Option.some.inj here
    obtain ⟨e, stands, rfl⟩ := Option.map_eq_some_iff.mp held
    obtain ⟨init, k, sign, stop, rest, rfl, changed⟩ := exists_entry stands
    obtain ⟨layout', node⟩ := e
    -- From the outside to the inside: the value, the object, its entries, the entry, its value.
    obtain ⟨before, after, split⟩ : Encloses
        (fun node => Expr.chars [' '] (.mk around
          (.object (init ++ .mk k sign (.mk layout' node) stop :: rest) closing))) Node.chars :=
      ((encloses_node [' '] around).comp _).trans <|
        ((encloses_object closing).comp _).trans <|
          ((encloses_entries init rest).comp _).trans <|
            ((encloses_entry k sign stop).comp _).trans (encloses_node [' '] layout')
    refine ⟨before, after, split node, fun v => ?_⟩
    rw [Expr.setProviderVersion, Expr.node]
    simp only [setVersionEntry, changed]
    exact split _
  | text version =>
    obtain rfl := Option.some.inj here
    obtain ⟨⟩ := held
    obtain ⟨before, after, split⟩ := encloses_node [' '] around
    exact ⟨before, after, split _, fun v => split _⟩
  | _ => cases here

/-- A version of a provider is written in one place of its text. -/
theorem replaces_provider : providerShelf.Replaces Structure.chars := by
  intro x i slot node found held
  cases x with
  | block => simp [providerShelf] at found
  | attr layout key gap value =>
    have bound := (List.getElem?_eq_some_iff.mp found).1
    have here : providerSlot? key value = some slot := by
      cases h : providerSlot? key value with
      | none => simp [providerShelf, h] at found
      | some s =>
        simp only [providerShelf, h, Option.toList_some, List.length_singleton] at bound found
        obtain rfl : i = 0 := by omega
        exact found
    obtain rfl : i = 0 := by
      simp only [providerShelf, here, Option.toList_some, List.length_singleton] at bound
      omega
    have written : ∀ v, providerShelf.write (.single 0 v) (.attr layout key gap value) =
        .attr layout key gap (value.setProviderVersion v.toList) := by
      intro v
      simp [providerShelf, Writes.single, writeProvider, here]
    obtain ⟨before, after, now, later⟩ := replaces_providerValue here held
    obtain ⟨front, back, split⟩ := encloses_attr layout key gap
    refine ⟨front ++ before, after ++ back, ?_, fun v => ?_⟩
    · simp only [split, now, List.append_assoc]
    · simp only [written, split, later, List.append_assoc]

theorem replaces_attribute (kind : PinKind) (name : String) (key : List Structure → String)
    (word : Chars) (keeps) (chars : Body → Chars)
    (encloses : ∀ frame init rest,
      Encloses (fun s => chars ⟨frame, init ++ s :: rest⟩) Structure.chars) :
    (attributeShelf kind name key word keeps).Replaces chars := by
  intro body i slot node found held
  simp only [attributeShelf] at found ⊢
  obtain rfl : i = 0 := by
    have bound := (List.getElem?_eq_some_iff.mp found).1
    simp only [List.length_singleton] at bound
    omega
  obtain rfl := Option.some.inj found
  obtain ⟨e, stands, rfl⟩ := Option.map_eq_some_iff.mp held
  obtain ⟨init, layout, gap, rest, same, changed⟩ := exists_attribute stands
  obtain ⟨around, node⟩ := e
  obtain ⟨frame, items⟩ := body
  obtain rfl : items = _ := same
  obtain ⟨before, after, split⟩ : Encloses
      (fun node => chars ⟨frame, init ++ .attr layout word gap (.mk around node) :: rest⟩)
      Node.chars :=
    ((encloses frame init rest).comp _).trans (encloses_value layout word gap around)
  refine ⟨before, after, split node, fun v => ?_⟩
  simp only [Writes.single, if_true, setAttribute_of_some (changed _)]
  exact split _

theorem replaces_nested : nestedShelf.Replaces Structure.chars := by
  refine Shelf.Replaces.within _ _ _ _ fun x S picked => ?_
  cases x with
  | attr => cases picked
  | block layout word gap labels frame items =>
    simp only at picked
    split at picked
    case isFalse => cases picked
    case isTrue =>
      obtain rfl := Option.some.inj picked
      refine ⟨fun items => Body.innerChars ⟨frame, items⟩,
        replaces_provider.list fun init rest => encloses_items frame init rest, ?_⟩
      exact (encloses_inner layout word gap labels).comp fun items => ⟨frame, items⟩

theorem replaces_terraform : terraformShelf.Replaces Body.innerChars := by
  refine Shelf.Replaces.both ?_ ?_ _ _ _
  · exact replaces_attribute _ _ _ _ _ _ encloses_items
  · refine Shelf.Replaces.within _ _ _ _ fun body S picked => ?_
    obtain rfl := Option.some.inj picked
    exact ⟨fun items => Body.innerChars ⟨body.frame, items⟩,
      replaces_nested.list fun init rest => encloses_items body.frame init rest,
      [], [], fun items => by simp⟩

/-- A version is written in one place of the text of its structure. -/
theorem replaces_structure : structureShelf.Replaces Structure.chars := by
  refine Shelf.Replaces.within _ _ _ _ fun x S picked => ?_
  cases x with
  | attr => cases picked
  | block layout word gap labels frame items =>
    have encloses : Encloses
        (fun body => ((Structure.block layout word gap labels frame items).withBody body).chars)
        Body.innerChars :=
      encloses_inner layout word gap labels
    -- Only modules and `terraform` have slots.
    simp only at picked
    split at picked
    case isTrue =>
      obtain rfl := Option.some.inj picked
      exact ⟨_, replaces_attribute _ _ _ _ _ _ encloses_items, encloses⟩
    case isFalse =>
      split at picked
      case isTrue =>
        obtain rfl := Option.some.inj picked
        exact ⟨_, replaces_terraform, encloses⟩
      case isFalse => cases picked

/-- A version that is written to a slot with a version replaces one stretch of the text. -/
theorem Document.replaces : documentShelf.Replaces fun d => d.body.chars := by
  refine Shelf.Replaces.within _ _ _ _ fun d S picked => ?_
  obtain rfl := Option.some.inj picked
  exact ⟨fun items => Body.chars ⟨d.body.frame, items⟩,
    replaces_structure.list fun init rest => encloses_body d.body.frame init rest,
    [], [], fun items => by simp⟩

end TerraformPins
