import TerraformPins.Update

/-!
# Slots

A slot is a place for a version in the tree of a document, seen apart from the tree: what it says
now and what it will say once a version has been written there. A value that holds slots can be
asked for them, can be written at several of them at once and can be walked. The laws of a `Shelf`
say that these three go together: a write at a slot is seen at this slot and nowhere else, the last
of two writes counts, writing what is there already changes nothing, and a walk first decides on the
slots as they are and then writes.

The laws are proved from the leaves of a document upwards, and `Shelf.list` carries them from the
members of a list to the list.

## Main definitions

* `Slot` — a place for a version
* `Writes` — what is to be written at which slot
* `Shelf` — a type of values that hold slots, with the laws of reading and writing
* `Shelf.list` — lists of values that hold slots
-/

namespace TerraformPins

open Hcl

/-- An expression without what stands behind it. -/
def Hcl.Expr.bare (e : Expr) : Expr :=
  e.withLayout ⟨e.layout.before, some []⟩

/-- What a source reads. -/
def sourceText? (source : Option Expr) : Option String :=
  source.map fun e => String.ofList e.plainText

/-- A place for a version, apart from the tree that it stands in. -/
structure Slot where
  kind : PinKind
  name : String
  key : String
  /-- The source of the provider. -/
  source : Option Expr
  /-- Whether a version that is added here takes over what stands behind the source. -/
  exposed : Bool
  /-- The layout in which the version stands or will stand. -/
  place : Layout
  /-- The version, if there is one. -/
  held : Option Node
  /-- Nothing is added where a version stands already. -/
  held_eq_none : exposed = true → held = none

namespace Slot

/-- What a document says at the slot. -/
def site (s : Slot) : Site :=
  .ofValue s.kind s.name s.key (sourceText? s.source) (s.held.map (.mk s.place))

/-- The pin at the slot. -/
def pin (s : Slot) : Pin :=
  s.site.pin

/-- The source of the provider once a version has been written. -/
def settled (s : Slot) : Option Expr :=
  if s.exposed then s.source.map Expr.bare else s.source

/-- The slot after `version` has been written. -/
def write (s : Slot) (version : String) : Slot :=
  { s with
    source := s.settled
    exposed := false
    held := some (.text version.toList)
    held_eq_none := nofun }

/-- The slot after a write or none. -/
def put (s : Slot) : Option String → Slot
  | none => s
  | some version => s.write version

@[simp] theorem put_none (s : Slot) : s.put none = s := rfl

@[simp] theorem put_some (s : Slot) (version : String) :
    s.put (some version) = s.write version := rfl

/-- Whether the source reads the same once a version has been written. -/
def Steady (s : Slot) : Prop :=
  sourceText? s.settled = sourceText? s.source

instance (s : Slot) : Decidable s.Steady :=
  inferInstanceAs (Decidable (_ = _))

/-- A source reads differently if it gives up what stands behind it and this was part of its
text. -/
theorem not_steady_iff {s : Slot} :
    ¬ s.Steady ↔ s.exposed = true ∧ ∃ e, s.source = some e ∧ e.bare.plainText ≠ e.plainText := by
  unfold Steady settled sourceText?
  cases s.exposed <;> cases s.source <;> simp [String.ofList_inj]

theorem site_write (s : Slot) (version : String) :
    (s.write version).site =
      ⟨⟨s.kind, s.name, s.key, sourceText? s.settled, some version⟩, some version⟩ := by
  simp [write, site, Site.ofValue, Expr.plainText, Expr.quoted?, Expr.node]

/-- A pin after a write: its version is the new one, and its source is read again. -/
theorem pin_write (s : Slot) (version : String) :
    (s.write version).pin =
      { s.pin with providerSource := sourceText? s.settled, version := some version } := by
  rw [pin, site_write]
  rfl

/-- A write changes nothing but the version exactly if the source is steady. -/
theorem pin_write_eq_iff (s : Slot) (version : String) :
    (s.write version).pin = { s.pin with version := some version } ↔ s.Steady := by
  rw [pin_write]
  simp [Steady, pin, site, Site.ofValue]

/-- A write does nothing exactly if the slot holds the same quoted string. -/
theorem changes_eq_false_iff (s : Slot) (version : String) :
    s.site.changes version = false ↔ s.held = some (.text version.toList) := by
  cases held : s.held with
  | none => simp [Site.changes, site, Site.ofValue, held]
  | some node =>
    cases node with
    | text value =>
      simp [Site.changes, site, Site.ofValue, held, Expr.quoted?, Expr.node, ← String.toList_inj]
    | _ => simp [Site.changes, site, Site.ofValue, held, Expr.quoted?, Expr.node]

@[simp] theorem settled_write (s : Slot) (version : String) :
    (s.write version).settled = s.settled := rfl

/-- Of two writes to a slot the second one counts, if it is there. -/
theorem put_put (s : Slot) (first second : Option String) :
    (s.put first).put second = s.put (second.or first) := by
  cases first <;> cases second <;> rfl

/-- The source stays where nothing is added behind it. -/
theorem settled_of_held {s : Slot} (h : s.held ≠ none) : s.settled = s.source := by
  cases exposed : s.exposed with
  | true => exact absurd (s.held_eq_none exposed) h
  | false => simp [settled, exposed]

/-- Writing what a slot holds already changes nothing. -/
theorem write_eq_self {s : Slot} {version : String} (h : s.held = some (.text version.toList)) :
    s.write version = s := by
  have settled : s.settled = s.source := settled_of_held (by simp [h])
  have hidden : s.exposed = false := by
    cases exposed : s.exposed with
    | false => rfl
    | true => simp [s.held_eq_none exposed] at h
  cases s
  simp_all [write]

end Slot

/-- What is to be written at the slots, by their numbers. -/
abbrev Writes := Nat → Option String

namespace Writes

/-- The writes for the slots behind the first `n`. -/
def shift (p : Writes) (n : Nat) : Writes := fun i => p (i + n)

/-- A write at one slot. -/
def single (index : Nat) (version : String) : Writes :=
  fun i => if i = index then some version else none

/-- Writes after other writes: the later one counts. -/
def after (later earlier : Writes) : Writes := fun i => (later i).or (earlier i)

@[simp] theorem shift_zero (p : Writes) : p.shift 0 = p := rfl

@[simp] theorem shift_apply (p : Writes) (n i : Nat) : p.shift n i = p (i + n) := rfl

@[simp] theorem after_apply (q p : Writes) (i : Nat) : q.after p i = (q i).or (p i) := rfl

/-- Two writes one after the other, from a number on. -/
theorem shift_after (q p : Writes) (n : Nat) :
    (q.after p).shift n = (q.shift n).after (p.shift n) :=
  rfl

theorem shift_shift (p : Writes) (n m : Nat) : (p.shift n).shift m = p.shift (n + m) := by
  funext i
  simp [Nat.add_comm n m, Nat.add_assoc]

/-- The writes of a list of choices. -/
def ofList (choices : List (Option String)) : Writes := fun i => choices[i]?.join

@[simp] theorem ofList_cons_zero (c : Option String) (cs : List (Option String)) :
    ofList (c :: cs) 0 = c := by
  simp [ofList]

/-- The first texts of a list go to the first slots. -/
theorem ofList_append_of_lt {cs ds : List (Option String)} {i : Nat} (h : i < cs.length) :
    ofList (cs ++ ds) i = ofList cs i := by
  simp [ofList, List.getElem?_append_left h]

/-- The others go to the slots behind them. -/
theorem shift_ofList_append (cs ds : List (Option String)) :
    (ofList (cs ++ ds)).shift cs.length = ofList ds := by
  funext i
  simp [ofList, List.getElem?_append_right]

section Each

variable {Q : Slot → String → Prop} {p : Writes} {xs ys : List Slot}
  (h : ∀ i s v, (xs ++ ys)[i]? = some s → p i = some v → Q s v)
include h

/-- What holds of all writes holds of those at the first slots. -/
theorem each_left : ∀ i s v, xs[i]? = some s → p i = some v → Q s v := by
  intro i s v found
  have inside : i < xs.length := (List.getElem?_eq_some_iff.mp found).1
  exact h i s v (by rwa [List.getElem?_append_left inside])

/-- What holds of all writes holds of those at the slots behind the first ones. -/
theorem each_right : ∀ i s v, ys[i]? = some s → p.shift xs.length i = some v → Q s v := by
  intro i s v found
  apply h (i + xs.length) s v
  rw [List.getElem?_append_right (Nat.le_add_left _ _), Nat.add_sub_cancel, found]

end Each

/-- Nothing new is written: only what the slots hold already. -/
def Repeats (p : Writes) (slots : List Slot) : Prop :=
  ∀ i s v, slots[i]? = some s → p i = some v → s.held = some (.text v.toList)

/-- A write that repeats what all slots hold repeats what the first ones hold. -/
theorem Repeats.left {p : Writes} {xs ys : List Slot} (h : p.Repeats (xs ++ ys)) : p.Repeats xs :=
  each_left h

theorem Repeats.right {p : Writes} {xs ys : List Slot} (h : p.Repeats (xs ++ ys)) :
    (p.shift xs.length).Repeats ys :=
  each_right h

/-- A write to one slot that repeats what the slot holds. -/
theorem repeats_singleton {p : Writes} {s : Slot}
    (h : ∀ v, p 0 = some v → s.held = some (.text v.toList)) : p.Repeats [s] := by
  intro i t v found written
  cases i with
  | zero =>
    obtain rfl := Option.some.inj found
    exact h v written
  | succ i => cases found

end Writes

namespace Document

variable {σ : Type}

/-- What a visit decides at the slots, in turn. -/
def choices (visit : Visit σ) : σ → List Slot → σ × List (Option String)
  | s, [] => (s, [])
  | s, slot :: slots =>
    let (s, choice) := visit s slot.site
    let (s, more) := choices visit s slots
    (s, choice :: more)

@[simp] theorem choices_nil (visit : Visit σ) (s : σ) : choices visit s [] = (s, []) := rfl

theorem choices_singleton (visit : Visit σ) (s : σ) (slot : Slot) :
    choices visit s [slot] = ((visit s slot.site).1, [(visit s slot.site).2]) := rfl

/-- Two rows of sites are visited one after the other, the second from the state that the first one
leaves. -/
theorem choices_append (visit : Visit σ) (s : σ) (xs ys : List Slot) :
    choices visit s (xs ++ ys) =
      ((choices visit (choices visit s xs).1 ys).1,
        (choices visit s xs).2 ++ (choices visit (choices visit s xs).1 ys).2) := by
  induction xs generalizing s with
  | nil => rfl
  | cons x xs ih => simp only [List.cons_append, choices, ih]

@[simp] theorem length_choices (visit : Visit σ) (s : σ) (slots : List Slot) :
    (choices visit s slots).2.length = slots.length := by
  induction slots generalizing s with
  | nil => rfl
  | cons slot slots ih => simp [choices, ih]

end Document

open Document

/-- Values that hold slots, with the laws of reading and writing. -/
structure Shelf (α : Type) where
  /-- The slots of a value, in the order of the text. -/
  slots : α → List Slot
  /-- The value after writes. -/
  write : Writes → α → α
  /-- The walk over the slots of a value. -/
  walk : {σ : Type} → Visit σ → σ → α → σ × α
  slots_write : ∀ p x, slots (write p x) = (slots x).mapIdx fun i s => s.put (p i)
  write_write : ∀ p q x, write q (write p x) = write (q.after p) x
  write_eq_self : ∀ p x, p.Repeats (slots x) → write p x = x
  write_congr : ∀ p q x, (∀ i < (slots x).length, p i = q i) → write p x = write q x
  walk_eq : ∀ {σ : Type} (visit : Visit σ) (s : σ) (x : α),
    walk visit s x = ((choices visit s (slots x)).1,
      write (Writes.ofList (choices visit s (slots x)).2) x)

namespace Shelf

variable {α : Type} (S : Shelf α)

@[simp] theorem length_slots_write (p : Writes) (x : α) :
    (S.slots (S.write p x)).length = (S.slots x).length := by
  simp [S.slots_write]

/-- The members of a list written one after another. -/
def writeList (p : Writes) : List α → List α
  | [] => []
  | x :: xs => S.write p x :: writeList (p.shift (S.slots x).length) xs

@[simp] theorem writeList_nil (p : Writes) : S.writeList p [] = [] := rfl

@[simp] theorem length_writeList (p : Writes) (xs : List α) :
    (S.writeList p xs).length = xs.length := by
  induction xs generalizing p with
  | nil => rfl
  | cons x xs ih => simp [writeList, ih]

/-- Writing to two rows of values: the second has the numbers behind the slots of the first. -/
theorem writeList_append (p : Writes) (xs ys : List α) :
    S.writeList p (xs ++ ys) =
      S.writeList p xs ++ S.writeList (p.shift (xs.flatMap S.slots).length) ys := by
  induction xs generalizing p with
  | nil => simp
  | cons x xs ih => simp [writeList, ih, Writes.shift_shift]

/-- Lists of values that hold slots. -/
def list : Shelf (List α) where
  slots := List.flatMap S.slots
  write := S.writeList
  walk visit := mapWith (S.walk visit)
  slots_write p xs := by
    induction xs generalizing p with
    | nil => rfl
    | cons x xs ih =>
      simp only [writeList, List.flatMap_cons, S.slots_write, ih, List.mapIdx_append,
        Writes.shift_apply]
  write_write p q xs := by
    induction xs generalizing p q with
    | nil => rfl
    | cons x xs ih =>
      simp only [writeList, S.write_write, S.length_slots_write, ih, Writes.shift_after]
  write_eq_self p xs h := by
    induction xs generalizing p with
    | nil => rfl
    | cons x xs ih =>
      rw [writeList, S.write_eq_self p x h.left, ih _ h.right]
  write_congr p q xs h := by
    induction xs generalizing p q with
    | nil => rfl
    | cons x xs ih =>
      simp only [List.flatMap_cons, List.length_append] at h
      rw [writeList, writeList, S.write_congr p q x fun i bound => h i (by omega),
        ih (p.shift _) (q.shift _) fun i bound => h (i + (S.slots x).length) (by omega)]
  walk_eq visit s xs := by
    induction xs generalizing s with
    | nil => rfl
    | cons x xs ih =>
      rw [mapWith, S.walk_eq]
      simp only [ih, List.flatMap_cons, choices_append, writeList, Prod.mk.injEq, true_and,
        List.cons.injEq]
      -- The choices at the slots of `x` come first, and those at the others are counted from there.
      have shift := Writes.shift_ofList_append (choices visit s (S.slots x)).2
        (choices visit (choices visit s (S.slots x)).1 (xs.flatMap S.slots)).2
      rw [length_choices] at shift
      rw [shift]
      refine ⟨S.write_congr _ _ x fun i bound => ?_, rfl⟩
      rw [Writes.ofList_append_of_lt (by simpa using bound)]

/-- Two kinds of slots in one value, those of `A` in front of those of `B`. Neither kind is
disturbed by writes at the other. -/
def both (A B : Shelf α)
    (slots_left : ∀ p x, A.slots (B.write p x) = A.slots x)
    (slots_right : ∀ p x, B.slots (A.write p x) = B.slots x)
    (comm : ∀ p q x, A.write p (B.write q x) = B.write q (A.write p x)) : Shelf α where
  slots x := A.slots x ++ B.slots x
  write p x := B.write (p.shift (A.slots x).length) (A.write p x)
  walk visit s x :=
    let (s, x) := A.walk visit s x
    B.walk visit s x
  slots_write p x := by
    rw [slots_left, A.slots_write, B.slots_write, slots_right, List.mapIdx_append]
    rfl
  write_write p q x := by
    rw [slots_left, A.length_slots_write, comm, B.write_write, A.write_write, Writes.shift_after]
  write_eq_self p x h := by
    rw [A.write_eq_self p x h.left, B.write_eq_self _ x h.right]
  write_congr p q x h := by
    simp only [List.length_append] at h
    rw [A.write_congr p q x fun i bound => h i (by omega)]
    refine B.write_congr _ _ _ fun i bound => h _ ?_
    rw [slots_right] at bound
    omega
  walk_eq visit s x := by
    simp only [A.walk_eq, B.walk_eq, slots_right, choices_append, Prod.mk.injEq, true_and]
    have shift := Writes.shift_ofList_append (choices visit s (A.slots x)).2
      (choices visit (choices visit s (A.slots x)).1 (B.slots x)).2
    rw [length_choices] at shift
    rw [shift]
    congr 1
    refine A.write_congr _ _ x fun i bound => ?_
    rw [Writes.ofList_append_of_lt (by simpa using bound)]

/-- The slots of a part. The part is there if `pick` has slots for it. -/
def within {β : Type} (pick : α → Option (Shelf β)) (get : α → β) (set : β → α → α)
    (pick_set : ∀ b x, pick (set b x) = pick x)
    (get_set : ∀ b x, (pick x).isSome → get (set b x) = b)
    (set_get : ∀ x, set (get x) x = x)
    (set_set : ∀ b c x, set c (set b x) = set c x) : Shelf α where
  slots x := match pick x with
    | none => []
    | some S => S.slots (get x)
  write p x := match pick x with
    | none => x
    | some S => set (S.write p (get x)) x
  walk visit s x := match pick x with
    | none => (s, x)
    | some S =>
      let (s, b) := S.walk visit s (get x)
      (s, set b x)
  slots_write p x := by
    cases picked : pick x with
    | none => simp [picked]
    | some S => simp [picked, pick_set, get_set, S.slots_write]
  write_write p q x := by
    cases picked : pick x with
    | none => simp [picked]
    | some S => simp [picked, pick_set, get_set, set_set, S.write_write]
  write_eq_self p x h := by
    cases picked : pick x with
    | none => rfl
    | some S =>
      simp only [picked] at h ⊢
      rw [S.write_eq_self p _ h, set_get]
  write_congr p q x h := by
    cases picked : pick x with
    | none => rfl
    | some S =>
      simp only [picked] at h ⊢
      rw [S.write_congr p q _ h]
  walk_eq visit s x := by
    cases picked : pick x with
    | none => rfl
    | some S => simp only [S.walk_eq]

end Shelf

end TerraformPins
