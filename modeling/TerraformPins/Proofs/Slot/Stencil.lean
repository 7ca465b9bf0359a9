import TerraformPins.Proofs.Slot.Text

/-!
# The text around the versions

The text of a document is a stencil with a hole for each version. Writing over versions that are
there fills the holes in another way and leaves the stencil, however many versions are written at
once. The holes stand in the order of the text, which is not that of the slots: the version of
`terraform` itself may stand behind those of the providers.

## Main definitions

* `Stencil`, `Stencil.fill` — a text with holes, and the text when they are filled
* `Writes.Overwrites` — writes that add no version
* `Drawn` — a text that depends on writes is a stencil with one hole for each version
* `Shelf.Drawn` — this holds for the text of every value

## Main results

* `Document.drawn` — the text of a document is a stencil
-/

namespace TerraformPins

open Hcl Document

/-- A piece of a stencil. -/
inductive Piece where
  | text (chars : Chars)
  | hole (index : Nat)
  deriving DecidableEq, Repr

/-- A text with numbered holes. -/
abbrev Stencil := List Piece

namespace Stencil

/-- The text of a stencil with filled holes. -/
def fill (f : Nat → Chars) (st : Stencil) : Chars :=
  st.flatMap fun
    | .text cs => cs
    | .hole i => f i

/-- The numbers of the holes, in the order of the text. -/
def holes (st : Stencil) : List Nat :=
  st.filterMap fun
    | .text _ => none
    | .hole i => some i

/-- A stencil with other numbers for its holes. -/
def renumber (e : Nat → Nat) (st : Stencil) : Stencil :=
  st.map fun
    | .text cs => .text cs
    | .hole i => .hole (e i)

variable (f g : Nat → Chars) (st more : Stencil)

@[simp] theorem fill_append : fill f (st ++ more) = fill f st ++ fill f more := by
  simp [fill]

@[simp] theorem holes_append : holes (st ++ more) = holes st ++ holes more := by
  simp [holes]

@[simp] theorem fill_text (cs : Chars) : fill f [.text cs] = cs := by
  simp [fill]

@[simp] theorem holes_text (cs : Chars) : holes [.text cs] = [] := rfl

@[simp] theorem fill_hole (i : Nat) : fill f [.hole i] = f i := by
  simp [fill]

@[simp] theorem holes_hole (i : Nat) : holes [.hole i] = [i] := rfl

/-- A renumbered stencil is filled like the stencil itself, by the new numbers. -/
theorem fill_renumber (e : Nat → Nat) : fill f (st.renumber e) = fill (fun i => f (e i)) st := by
  induction st with
  | nil => rfl
  | cons piece st ih =>
    simp only [fill, renumber, List.map_cons, List.flatMap_cons] at ih ⊢
    rw [ih]
    cases piece <;> rfl

theorem holes_renumber (e : Nat → Nat) : holes (st.renumber e) = (holes st).map e := by
  induction st with
  | nil => rfl
  | cons piece st ih => cases piece <;> simp_all [holes, renumber]

variable {f g st}

/-- Only the texts for the holes of a stencil count. -/
theorem fill_congr (same : ∀ i ∈ holes st, f i = g i) : fill f st = fill g st := by
  induction st with
  | nil => rfl
  | cons piece st ih =>
    cases piece with
    | text cs => simpa [fill] using ih same
    | hole i =>
      have here := same i (by simp [holes])
      have rest := ih fun j member => same j (by simp_all [holes])
      simpa [fill, here] using rest

end Stencil

/-- The version at the slot with a given number. -/
def heldAt (slots : List Slot) (i : Nat) : Option Node :=
  slots[i]?.bind Slot.held

/-- The text of the version at the slot with a given number. -/
def heldText (slots : List Slot) (i : Nat) : Chars :=
  ((heldAt slots i).map Node.chars).getD []

/-- Slots after writes. -/
def Writes.at (p : Writes) (slots : List Slot) : List Slot :=
  slots.mapIdx fun i s => s.put (p i)

/-- Nothing is written where there is no version. -/
def Writes.Overwrites (p : Writes) (slots : List Slot) : Prop :=
  ∀ i s v, slots[i]? = some s → p i = some v → s.held ≠ none

/-- A text that depends on what is written at slots is a stencil with one hole for each version, as
long as no version is added. -/
def Drawn (slots : List Slot) (chars : Writes → Chars) : Prop :=
  ∃ st : Stencil, (∀ i, st.holes.count i = if (heldAt slots i).isSome then 1 else 0) ∧
    ∀ p : Writes, p.Overwrites slots → chars p = st.fill (heldText (p.at slots))

section Drawn

variable {xs ys : List Slot} {g h : Writes → Chars} {p : Writes}

/-- A write that overwrites all slots overwrites the first ones. -/
theorem Writes.Overwrites.left (overwrites : p.Overwrites (xs ++ ys)) : p.Overwrites xs :=
  each_left overwrites

theorem Writes.Overwrites.right (overwrites : p.Overwrites (xs ++ ys)) :
    (p.shift xs.length).Overwrites ys :=
  each_right overwrites

/-- What the first slots hold among all. -/
theorem heldAt_append_left {i : Nat} (bound : i < xs.length) :
    heldAt (xs ++ ys) i = heldAt xs i := by
  rw [heldAt, heldAt, List.getElem?_append_left bound]

/-- What the last slots hold, with the numbers that they have among all. -/
theorem heldAt_append_right (xs : List Slot) (i : Nat) :
    heldAt (xs ++ ys) (i + xs.length) = heldAt ys i := by
  rw [heldAt, heldAt, List.getElem?_append_right (Nat.le_add_left _ _), Nat.add_sub_cancel]

/-- Behind the last slot nothing is held. -/
theorem heldAt_of_le {i : Nat} (bound : xs.length ≤ i) : heldAt xs i = none := by
  rw [heldAt, List.getElem?_eq_none bound]
  rfl

@[simp] theorem Writes.length_at (p : Writes) (slots : List Slot) :
    (p.at slots).length = slots.length := by
  simp [Writes.at]

/-- What is written at two rows of slots is written at each of them. -/
theorem Writes.at_append (p : Writes) (xs ys : List Slot) :
    p.at (xs ++ ys) = p.at xs ++ (p.shift xs.length).at ys := by
  simp only [Writes.at, List.mapIdx_append]
  rfl

/-- A number that comes from one other number only is counted as often as that one. -/
theorem count_map {e : Nat → Nat} {i k : Nat} (inverse : ∀ j, e j = i ↔ j = k) (js : List Nat) :
    (js.map e).count i = js.count k := by
  rw [List.count, List.count, List.countP_map]
  refine List.countP_congr fun j _ => ?_
  simpa using inverse j

/-- A hole stands for a slot. -/
theorem lt_of_mem_holes {st : Stencil}
    (once : ∀ i, st.holes.count i = if (heldAt xs i).isSome then 1 else 0) {i : Nat}
    (member : i ∈ st.holes) : i < xs.length := by
  refine Nat.lt_of_not_le fun outside => ?_
  have counted := once i
  rw [heldAt_of_le outside, if_neg (by simp)] at counted
  exact List.count_eq_zero.mp counted member

/-- A text that no write changes has no holes. -/
theorem drawn_of_const {cs : Chars} (empty : ∀ s ∈ xs, s.held = none)
    (const : ∀ p : Writes, p.Overwrites xs → g p = cs) : Drawn xs g := by
  refine ⟨[.text cs], fun i => ?_, fun p overwrites => ?_⟩
  · have missing : heldAt xs i = none := by
      unfold heldAt
      cases found : xs[i]? with
      | none => rfl
      | some s => exact empty s (List.mem_of_getElem? found)
    simp [missing]
  · rw [const p overwrites, Stencil.fill_text]

/-- Texts that depend on writes at different slots. -/
theorem Drawn.apart (first : Drawn xs g) (second : Drawn ys h) :
    ∃ st more : Stencil,
      (∀ i, st.holes.count i + more.holes.count i =
        if (heldAt (xs ++ ys) i).isSome then 1 else 0) ∧
      ∀ p : Writes, p.Overwrites (xs ++ ys) →
        g p = st.fill (heldText (p.at (xs ++ ys))) ∧
          h (p.shift xs.length) = more.fill (heldText (p.at (xs ++ ys))) := by
  obtain ⟨st, once, drawn⟩ := first
  obtain ⟨more, onceMore, drawnMore⟩ := second
  -- The slots behind those of `xs` are counted on, so no number has a hole in both stencils.
  refine ⟨st, more.renumber (· + xs.length), fun i => ?_, fun p overwrites => ⟨?_, ?_⟩⟩
  · rw [Stencil.holes_renumber]
    rcases Nat.lt_or_ge i xs.length with inside | behind
    · have absent : (more.holes.map (· + xs.length)).count i = 0 := by
        refine List.count_eq_zero.mpr fun member => ?_
        obtain ⟨j, -, same⟩ := List.mem_map.mp member
        omega
      rw [absent, once, heldAt_append_left inside, Nat.add_zero]
    · obtain ⟨j, rfl⟩ := Nat.exists_eq_add_of_le' behind
      have absent : st.holes.count (j + xs.length) = 0 := by
        refine List.count_eq_zero.mpr fun member => ?_
        have := lt_of_mem_holes once member
        omega
      have shifted : (more.holes.map (· + xs.length)).count (j + xs.length) = more.holes.count j :=
        count_map (fun k => by omega) _
      rw [absent, shifted, onceMore, heldAt_append_right, Nat.zero_add]
  · rw [drawn p overwrites.left, Writes.at_append]
    refine Stencil.fill_congr fun i member => ?_
    have inside : i < (p.at xs).length := by
      simpa using lt_of_mem_holes once member
    rw [heldText, heldText, heldAt_append_left inside]
  · rw [drawnMore _ overwrites.right, Stencil.fill_renumber, Writes.at_append]
    refine Stencil.fill_congr fun i _ => ?_
    have behind := @heldAt_append_right ((p.shift xs.length).at ys) (p.at xs) i
    rw [Writes.length_at] at behind
    rw [heldText, heldText, behind]

/-- Two texts one behind the other: the holes of the second are numbered from the slots of the first
on. -/
theorem Drawn.append (first : Drawn xs g) (second : Drawn ys h) :
    Drawn (xs ++ ys) fun p => g p ++ h (p.shift xs.length) := by
  obtain ⟨st, more, once, drawn⟩ := first.apart second
  refine ⟨st ++ more, fun i => ?_, fun p overwrites => ?_⟩
  · rw [Stencil.holes_append, List.count_append, once]
  · rw [Stencil.fill_append, ← (drawn p overwrites).1, ← (drawn p overwrites).2]

/-- The later slots may stand in front in the text. -/
theorem Drawn.prepend (first : Drawn xs g) (second : Drawn ys h) :
    Drawn (xs ++ ys) fun p => h (p.shift xs.length) ++ g p := by
  obtain ⟨st, more, once, drawn⟩ := first.apart second
  refine ⟨more ++ st, fun i => ?_, fun p overwrites => ?_⟩
  · rw [Stencil.holes_append, List.count_append, Nat.add_comm, once]
  · rw [Stencil.fill_append, ← (drawn p overwrites).1, ← (drawn p overwrites).2]

/-- The text of a whole around a text that depends on writes. -/
theorem Drawn.around (drawn : Drawn xs g) (before after : Chars) :
    Drawn xs fun p => before ++ g p ++ after := by
  obtain ⟨st, once, drawn⟩ := drawn
  refine ⟨.text before :: (st ++ [.text after]), fun i => ?_, fun p overwrites => ?_⟩
  · rw [← once i]
    simp [Stencil.holes]
  · simp [drawn p overwrites, Stencil.fill]

/-- A text is drawn if it equals a drawn one wherever slots are overwritten. -/
theorem Drawn.congr (drawn : Drawn xs g)
    (same : ∀ p : Writes, p.Overwrites xs → h p = g p) : Drawn xs h := by
  obtain ⟨st, once, drawn⟩ := drawn
  exact ⟨st, once, fun p overwrites => (same p overwrites).trans (drawn p overwrites)⟩

/-- A version that is replaced is a hole. -/
theorem drawn_of_held {s : Slot} {node : Node} (held : s.held = some node) :
    Drawn [s] fun p => ((s.put (p 0)).held.map Node.chars).getD [] := by
  refine ⟨[.hole 0], fun i => ?_, fun p _ => ?_⟩
  · cases i with
    | zero => simp [heldAt, held]
    | succ i => simp [heldAt]
  · simp [heldText, heldAt, Writes.at]

end Drawn

namespace Shelf

variable {α β : Type}

/-- The text of every value is a stencil. -/
def Drawn (S : Shelf α) (chars : α → Chars) : Prop :=
  ∀ x, TerraformPins.Drawn (S.slots x) fun p => chars (S.write p x)

/-- The text of a value with at most one slot is a stencil if a write replaces its version. -/
theorem Replaces.drawn {S : Shelf α} {chars : α → Chars} (replaces : S.Replaces chars)
    (single : ∀ x, S.slots x = [] ∨ ∃ s, S.slots x = [s]) : S.Drawn chars := by
  intro x
  have unwritten : ∀ p : Writes, (∀ i s v, (S.slots x)[i]? = some s → p i ≠ some v) →
      chars (S.write p x) = chars x := by
    intro p nothing
    rw [S.write_eq_self p x fun i s v found written => absurd written (nothing i s v found)]
  rcases single x with none | ⟨s, one⟩
  · refine drawn_of_const (by simp [none]) fun p _ => unwritten p ?_
    simp [none]
  · cases held : s.held with
    | none =>
      -- A slot without a version is not written, since writes only overwrite.
      refine @drawn_of_const _ _ (chars x) (by simp [one, held]) fun p overwrites => ?_
      exact unwritten p fun i t v found written => by
        have missing := overwrites i t v found written
        rw [one] at found
        obtain rfl := List.mem_singleton.mp (List.mem_of_getElem? found)
        exact missing held
    | some node =>
      obtain ⟨before, after, now, later⟩ := replaces x 0 s node (by simp [one]) held
      rw [one]
      refine ((drawn_of_held held).around before after).congr fun p _ => ?_
      cases written : p 0 with
      | none =>
        rw [unwritten p fun i t v found => ?_, now, Slot.put_none, held]
        · rfl
        · rw [one] at found
          obtain rfl : i = 0 := by
            have := (List.getElem?_eq_some_iff.mp found).1
            simpa using this
          simp [written]
      | some v =>
        rw [S.write_eq_single one written, later]
        rfl

/-- The text of a list is drawn if the texts of its members are. -/
theorem Drawn.list {S : Shelf α} {chars : α → Chars} (drawn : S.Drawn chars)
    {all : List α → Chars} (sep : Bool → Chars)
    (split : ∀ x xs, all (x :: xs) = chars x ++ (sep xs.isEmpty ++ all xs)) :
    S.list.Drawn all := by
  intro xs
  show TerraformPins.Drawn (xs.flatMap S.slots) fun p => all (S.writeList p xs)
  induction xs with
  | nil => exact @drawn_of_const _ _ (all []) (by simp) fun p _ => rfl
  | cons x xs ih =>
    have rest := ih.around (sep xs.isEmpty) []
    rw [List.flatMap_cons]
    refine ((drawn x).append rest).congr fun p _ => ?_
    have empty : (S.writeList (p.shift (S.slots x).length) xs).isEmpty = xs.isEmpty := by
      cases xs <;> rfl
    rw [writeList, split, empty, List.append_nil]

/-- The text of a whole is drawn if that of its part is and the rest stands around it. -/
theorem Drawn.within {pick : α → Option (Shelf β)} {get : α → β} {set : β → α → α}
    (pick_set get_set) (set_get : ∀ x, set (get x) x = x) (set_set) {chars : α → Chars}
    (h : ∀ x S, pick x = some S → ∃ part, S.Drawn part ∧ Encloses (fun b => chars (set b x)) part) :
    (Shelf.within pick get set pick_set get_set set_get set_set).Drawn chars := by
  intro x
  simp only [Shelf.within]
  cases picked : pick x with
  | none => exact @drawn_of_const _ _ (chars x) (by simp) fun p _ => rfl
  | some S =>
    obtain ⟨part, drawn, before, after, split⟩ := h x S picked
    refine ((drawn (get x)).around before after).congr fun p _ => ?_
    exact split _

end Shelf

theorem drawn_provider : providerShelf.Drawn Structure.chars :=
  replaces_provider.drawn slots_provider

theorem drawn_attribute (kind : PinKind) (name : String) (key : List Structure → String)
    (word : Chars) (keeps) : (attributeShelf kind name key word keeps).Drawn Body.innerChars :=
  (replaces_attribute kind name key word keeps _ encloses_items).drawn fun _ => .inr ⟨_, rfl⟩

theorem drawn_row {S : Shelf Structure} (drawn : S.Drawn Structure.chars) : S.list.Drawn rowChars :=
  drawn.list (fun _ => []) fun _ _ => rfl

theorem drawn_lines {S : Shelf Structure} (drawn : S.Drawn Structure.chars) (ends : Bool) :
    S.list.Drawn (linesChars ends) := by
  refine drawn.list (fun last => if last ∧ ¬ ends then [] else ['\n']) fun x xs => ?_
  rw [linesChars, List.append_assoc]

/-- The text of a body is drawn if those of its structures are, over lines or on one line. -/
theorem drawn_items {S : Shelf Structure} (drawn : S.Drawn Structure.chars) (frame : Frame) :
    S.list.Drawn fun items => Body.innerChars ⟨frame, items⟩ := by
  intro items
  cases row : frame.oneLine with
  | true =>
    refine ((drawn_row drawn items).around frame.opening frame.closing).congr fun p _ => ?_
    simp [Body.innerChars, row]
  | false =>
    refine ((drawn_lines drawn frame.lastLineEnds items).around (frame.opening ++ ['\n'])
      frame.closing).congr fun p _ => ?_
    simp [Body.innerChars, row]

/-- The text of a nested block is drawn. -/
theorem drawn_nested : nestedShelf.Drawn Structure.chars := by
  refine Shelf.Drawn.within _ _ _ _ fun x S picked => ?_
  cases x with
  | attr => cases picked
  | block layout word gap labels frame items =>
    simp only at picked
    split at picked
    case isFalse => cases picked
    case isTrue =>
      obtain rfl := Option.some.inj picked
      exact ⟨_, drawn_items drawn_provider frame,
        (encloses_inner layout word gap labels).comp fun items => ⟨frame, items⟩⟩

/-- An expression after a write or none. -/
def Hcl.Expr.put (e : Expr) : Option String → Expr
  | none => e
  | some version => e.retext version.toList

/-- A list of structures with an attribute whose version is a slot, in front of the slots of the
others. -/
theorem drawn_among {all front : List Structure → Chars} (sep : Bool → Chars)
    (drawn : nestedShelf.list.Drawn all) (drawnFront : nestedShelf.list.Drawn front)
    (split : ∀ init x rest, all (init ++ x :: rest) =
      front init ++ (x.chars ++ (sep rest.isEmpty ++ all rest)))
    (s : Slot) (init rest : List Structure) {layout : Layout} {key : Chars} {gap : Option Chars}
    {e : Expr} (held : s.held = some e.node) :
    Drawn ([s] ++ nestedSlots (init ++ .attr layout key gap e :: rest)) fun p =>
      all (writeNested (p.shift 1) (init ++ .attr layout key gap (e.put (p 0)) :: rest)) := by
  obtain ⟨around, node⟩ := e
  obtain ⟨before, after, encloses⟩ := encloses_value layout key gap around
  -- The slot of the attribute is the first of the list and stands behind those of the front in the
  -- text.
  have own := ((drawn_of_held held).around before after).prepend (drawnFront init)
  have whole := own.append ((drawn rest).around (sep rest.isEmpty) [])
  rw [nestedSlots_append_attr, ← List.append_assoc]
  refine whole.congr fun p _ => ?_
  let n := ([s] ++ nestedSlots init).length
  have written : writeNested (p.shift 1)
        (init ++ .attr layout key gap ((Expr.mk around node).put (p 0)) :: rest) =
      writeNested (p.shift 1) init ++
        .attr layout key gap ((Expr.mk around node).put (p 0)) :: writeNested (p.shift n) rest := by
    simp [n, writeNested_append_attr, Writes.shift_shift]
  have empty : (writeNested (p.shift n) rest).isEmpty = rest.isEmpty := by
    cases rest <;> rfl
  have here : (Structure.attr layout key gap ((Expr.mk around node).put (p 0))).chars =
      before ++ ((s.put (p 0)).held.map Node.chars).getD [] ++ after := by
    cases p 0 with
    | none =>
      rw [Slot.put_none, held]
      exact encloses node
    | some v => exact encloses (.text v.toList)
  rw [written, split, empty, here]
  simp only [List.append_assoc, List.append_nil]
  rfl

theorem rowChars_append_cons (init : List Structure) (x : Structure) (rest : List Structure) :
    rowChars (init ++ x :: rest) = rowChars init ++ (x.chars ++ rowChars rest) := by
  induction init with
  | nil => rfl
  | cons first init ih => simp [rowChars, ih]

/-- The lines in front of a structure and behind it. -/
theorem linesChars_append_cons (lastLineEnds : Bool) (init : List Structure) (x : Structure)
    (rest : List Structure) :
    linesChars lastLineEnds (init ++ x :: rest) = linesChars true init ++ (x.chars ++
      ((if rest.isEmpty ∧ ¬ lastLineEnds then [] else ['\n']) ++
        linesChars lastLineEnds rest)) := by
  induction init with
  | nil => simp [linesChars]
  | cons first init ih => simp [linesChars, ih]

/-- A body with a version in an attribute among nested blocks: the attribute is the first hole. -/
theorem drawn_among_inner (s : Slot) (init rest : List Structure) {layout : Layout} {key : Chars}
    {gap : Option Chars} {e : Expr} (held : s.held = some e.node) (frame : Frame) :
    Drawn ([s] ++ nestedSlots (init ++ .attr layout key gap e :: rest)) fun p =>
      Body.innerChars ⟨frame, writeNested (p.shift 1)
        (init ++ .attr layout key gap (e.put (p 0)) :: rest)⟩ := by
  -- The text around the attribute depends on whether the body stands on one line.
  cases row : frame.oneLine with
  | true =>
    have whole := @drawn_among _ _ (fun _ => []) (drawn_row drawn_nested) (drawn_row drawn_nested)
      rowChars_append_cons s init rest layout key gap e held
    refine (whole.around frame.opening frame.closing).congr fun p _ => ?_
    simp [Body.innerChars, row]
  | false =>
    have whole := @drawn_among _ _ (fun last => if last ∧ ¬ frame.lastLineEnds then [] else ['\n'])
      (drawn_lines drawn_nested _) (drawn_lines drawn_nested true)
      (linesChars_append_cons frame.lastLineEnds) s init rest layout key gap e held
    refine (whole.around (frame.opening ++ ['\n']) frame.closing).congr fun p _ => ?_
    simp [Body.innerChars, row]

/-- The version of `terraform` itself may stand between those of the providers. -/
theorem drawn_terraform : terraformShelf.Drawn Body.innerChars := by
  intro body
  obtain ⟨frame, items⟩ := body
  let s := attributeSlot .terraform "terraform" "" requiredVersionKey items
  show TerraformPins.Drawn ([s] ++ nestedSlots items) fun p =>
    (nestedBodyShelf.write (p.shift 1) (requiredShelf.write p ⟨frame, items⟩)).innerChars
  -- Without a version of its own there is nothing to overwrite at the first slot.
  cases stands : valueAmong? requiredVersionKey items with
  | none =>
    have missing : s.held = none := by simp [s, attributeSlot, stands]
    have own : TerraformPins.Drawn [s] fun _ => [] :=
      drawn_of_const (by simpa using missing) fun _ _ => rfl
    refine (own.append (drawn_items drawn_nested frame items)).congr fun p overwrites => ?_
    have nothing : p 0 = none := by
      cases written : p 0 with
      | none => rfl
      | some v => exact absurd missing (overwrites 0 s v rfl written)
    rw [write_required, nothing]
    rfl
  | some e =>
    have held : s.held = some e.node := by simp [s, attributeSlot, stands]
    obtain ⟨init, layout, gap, rest, rfl, changed⟩ := exists_attribute stands
    refine (drawn_among_inner s init rest held frame).congr fun p _ => ?_
    rw [write_required]
    cases p 0 with
    | none => rfl
    | some v =>
      show (nestedBodyShelf.write (p.shift 1) (Body.setAttribute _ _ _)).innerChars = _
      rw [Body.setAttribute, changed]
      rfl

/-- The text of a structure is drawn, whatever the structure is. -/
theorem drawn_structure : structureShelf.Drawn Structure.chars := by
  refine Shelf.Drawn.within _ _ _ _ fun x S picked => ?_
  cases x with
  | attr => cases picked
  | block layout word gap labels frame items =>
    have encloses : Encloses
        (fun body => ((Structure.block layout word gap labels frame items).withBody body).chars)
        Body.innerChars :=
      encloses_inner layout word gap labels
    simp only at picked
    split at picked
    case isTrue =>
      obtain rfl := Option.some.inj picked
      exact ⟨_, drawn_attribute _ _ _ _ _, encloses⟩
    case isFalse =>
      split at picked
      case isTrue =>
        obtain rfl := Option.some.inj picked
        exact ⟨_, drawn_terraform, encloses⟩
      case isFalse => cases picked

/-- The text of a document is a stencil with one hole for each version. -/
theorem Document.drawn (d : Document) : Drawn d.slots fun p => (d.write p).body.chars := by
  refine ((drawn_lines drawn_structure d.body.frame.lastLineEnds d.body.items).around []
    d.body.frame.closing).congr fun p _ => rfl

end TerraformPins
