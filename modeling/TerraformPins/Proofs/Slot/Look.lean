import TerraformPins.Proofs.Overwrite

/-!
# Slots that look the same

Upgrades see of a slot what it says now and what its source will read once a version has been
written. Slots that agree in this run alike through every list of upgrades: the same versions are
written to them, and the same records are left.

So a value may be exchanged for what is read from its text. The slots look the same, and a write to
the one and to the other is read back the same. `Shelf.Rereads` says this of the values of a shelf,
and it is carried from the parts of a value to the value as the laws of a shelf are.

## Main definitions

* `Slot.look` — what upgrades see of a slot
* `Shelf.Rereads` — values that may be read again between two writes

## Main results

* `Document.update_congr` — documents whose slots look the same get the same versions and records
* `Shelf.Rereads.list`, `.both`, `.within` — values that are put together
-/

namespace TerraformPins

open Hcl Document

namespace Slot

/-- What upgrades see of a slot: what it says, and what its source will read once a version has been
written. -/
def look (s : Slot) : Site × Option String :=
  (s.site, sourceText? s.settled)

variable {s t : Slot}

theorem site_eq_of_look (h : s.look = t.look) : s.site = t.site :=
  congrArg Prod.fst h

theorem look_write (s : Slot) (version : String) :
    (s.write version).look =
      (⟨{ s.look.1.pin with providerSource := s.look.2, version := some version }, some version⟩,
        s.look.2) := by
  unfold look
  rw [site_write, settled_write]
  rfl

variable (addMissing : Bool) (u : Upgrade) (us : List Upgrade)

theorem look_step (h : s.look = t.look) :
    (s.step addMissing u).look = (t.step addMissing u).look := by
  have pins : s.pin = t.pin := congrArg Site.pin (site_eq_of_look h)
  unfold step
  rw [pins]
  split
  · rw [look_write, look_write, h]
  · exact h

theorem written_congr (h : s.look = t.look) :
    s.written addMissing us = t.written addMissing us := by
  induction us generalizing s t with
  | nil => rfl
  | cons u us ih => rw [written, written, ih (look_step addMissing u h), site_eq_of_look h]

end Slot

/-- Slots that look the same are alike for everything that depends on their looks. -/
theorem map_eq_of_looks {β : Type} {f : Slot → β}
    (only : ∀ {s t : Slot}, s.look = t.look → f s = f t) {ss ts : List Slot}
    (h : ss.map Slot.look = ts.map Slot.look) : ss.map f = ts.map f := by
  induction ss generalizing ts with
  | nil =>
    obtain rfl := List.map_eq_nil_iff.mp h.symm
    rfl
  | cons s ss ih =>
    cases ts with
    | nil => cases h
    | cons t ts =>
      obtain ⟨here, behind⟩ := List.cons.inj h
      rw [List.map_cons, List.map_cons, only here, ih behind]

section Documents

variable (addMissing : Bool) (us : List Upgrade)

/-- Machines that look the same leave the same records. -/
theorem records_congr {ρ : Type} (record? : Upgrade → Site → Option ρ) {ss ts : List Slot}
    (h : ss.map Slot.look = ts.map Slot.look) :
    records (Slot.step addMissing) (fun u s => record? u s.site) us ss =
      records (Slot.step addMissing) (fun u s => record? u s.site) us ts := by
  induction us generalizing ss ts with
  | nil => rfl
  | cons u us ih =>
    have stepped : (ss.map (·.step addMissing u)).map Slot.look =
        (ts.map (·.step addMissing u)).map Slot.look := by
      rw [List.map_map, List.map_map]
      exact map_eq_of_looks (Slot.look_step addMissing u) h
    have sites : ss.map Slot.site = ts.map Slot.site := map_eq_of_looks Slot.site_eq_of_look h
    have first := congrArg (List.filterMap (record? u)) sites
    rw [List.filterMap_map, List.filterMap_map] at first
    rw [records, records, ih stepped]
    exact congrArg (· ++ _) first

theorem Document.pins_congr {d e : Document} (h : d.slots.map Slot.look = e.slots.map Slot.look) :
    d.pins = e.pins := by
  rw [pins_eq, pins_eq]
  exact map_eq_of_looks (fun same => congrArg Site.pin (Slot.site_eq_of_look same)) h

/-- Documents whose slots look the same get the same versions and records. -/
theorem Document.update_congr {d e : Document} (h : d.slots.map Slot.look = e.slots.map Slot.look) :
    (d.update us addMissing).1 = (e.update us addMissing).1 ∧
      d.writes addMissing us = e.writes addMissing us := by
  refine ⟨?_, funext fun i => ?_⟩
  · have changes : slotChanges addMissing us d.slots = slotChanges addMissing us e.slots :=
      records_congr addMissing us (fun u => u.change? addMissing) h
    have refusals : slotRefusals addMissing us d.slots = slotRefusals addMissing us e.slots :=
      records_congr addMissing us (fun u => u.refusal? addMissing) h
    rw [(update_eq addMissing us d).1, (update_eq addMissing us e).1, changes, refusals]
  · have choices := map_eq_of_looks (Slot.written_congr addMissing us) h
    have read (slots : List Slot) :
        (slots.map (Slot.written addMissing us))[i]?.join =
          slots[i]?.bind (Slot.written addMissing us) := by
      rw [List.getElem?_map]
      cases slots[i]? <;> rfl
    rw [writes, writes, ← read, ← read, choices]

end Documents

namespace Shelf

/-- Values that may be read again between two writes. Here `read` is what is read from the text of a
value. -/
structure Rereads {α : Type} (S : Shelf α) (read : α → α) (Good : α → Prop) : Prop where
  good_read : ∀ {x}, Good x → Good (read x)
  good_write : ∀ {x} (p : Writes), Good x → Good (S.write p x)
  looks : ∀ {x}, Good x → (S.slots (read x)).map Slot.look = (S.slots x).map Slot.look
  read_write : ∀ {x} (p : Writes), Good x → read (S.write p (read x)) = read (S.write p x)

namespace Rereads

variable {α β : Type} {S A B : Shelf α} {read : α → α} {Good : α → Prop}

theorem length_slots (h : S.Rereads read Good) {x : α} (good : Good x) :
    (S.slots (read x)).length = (S.slots x).length := by
  simpa using congrArg List.length (h.looks good)

/-- Lists of values. -/
theorem list (h : S.Rereads read Good) :
    S.list.Rereads (List.map read) fun xs => ∀ x ∈ xs, Good x where
  good_read good x member := by
    obtain ⟨y, inside, rfl⟩ := List.mem_map.mp member
    exact h.good_read (good y inside)
  good_write {xs} p good := by
    show ∀ y ∈ S.writeList p xs, Good y
    induction xs generalizing p with
    | nil => exact fun y member => absurd member List.not_mem_nil
    | cons x xs ih =>
      rw [List.forall_mem_cons] at good
      exact List.forall_mem_cons.mpr ⟨h.good_write p good.1, ih _ good.2⟩
  looks {xs} good := by
    show ((xs.map read).flatMap S.slots).map Slot.look = (xs.flatMap S.slots).map Slot.look
    induction xs with
    | nil => rfl
    | cons x xs ih =>
      rw [List.forall_mem_cons] at good
      simp only [List.map_cons, List.flatMap_cons, List.map_append]
      rw [h.looks good.1, ih good.2]
  read_write {xs} p good := by
    show (S.writeList p (xs.map read)).map read = (S.writeList p xs).map read
    induction xs generalizing p with
    | nil => rfl
    | cons x xs ih =>
      rw [List.forall_mem_cons] at good
      simp only [List.map_cons, writeList]
      rw [h.read_write p good.1, h.length_slots good.1, ih _ good.2]

/-- Two kinds of slots in one value. -/
theorem both (a : A.Rereads read Good) (b : B.Rereads read Good)
    {slots_left : ∀ p x, A.slots (B.write p x) = A.slots x}
    {slots_right : ∀ p x, B.slots (A.write p x) = B.slots x}
    {comm : ∀ p q x, A.write p (B.write q x) = B.write q (A.write p x)} :
    (Shelf.both A B slots_left slots_right comm).Rereads read Good where
  good_read := a.good_read
  good_write p good := b.good_write _ (a.good_write p good)
  looks {x} good := by
    show (A.slots (read x) ++ B.slots (read x)).map Slot.look =
      (A.slots x ++ B.slots x).map Slot.look
    rw [List.map_append, List.map_append, a.looks good, b.looks good]
  read_write {x} p good := by
    -- Reading may be put in between the two writes and taken out again.
    let q := p.shift (A.slots x).length
    show read (B.write (p.shift (A.slots (read x)).length) (A.write p (read x))) =
      read (B.write q (A.write p x))
    rw [a.length_slots good]
    have left := a.good_write p (a.good_read good)
    have right := a.good_write p good
    calc read (B.write q (A.write p (read x)))
      _ = read (B.write q (read (A.write p (read x)))) := (b.read_write q left).symm
      _ = read (B.write q (read (A.write p x))) := by rw [a.read_write p good]
      _ = read (B.write q (A.write p x)) := b.read_write q right

/-- The slots of a part. -/
theorem within {pick : α → Option (Shelf β)} {get : α → β} {set : β → α → α}
    {pick_set : ∀ b x, pick (set b x) = pick x}
    {get_set : ∀ b x, (pick x).isSome → get (set b x) = b}
    {set_get : ∀ x, set (get x) x = x}
    {set_set : ∀ b c x, set c (set b x) = set c x} (part : β → β)
    (good_read : ∀ {x}, Good x → Good (read x))
    (read_read : ∀ x, read (read x) = read x)
    (pick_read : ∀ x, pick (read x) = pick x)
    (get_read : ∀ x, get (read x) = part (get x))
    (read_set : ∀ b x, read (set b x) = set (part b) (read x))
    (picked : ∀ {x T}, Good x → pick x = some T →
      ∃ Inner : β → Prop, T.Rereads part Inner ∧ Inner (get x) ∧ ∀ b, Inner b → Good (set b x)) :
    (Shelf.within pick get set pick_set get_set set_get set_set).Rereads read Good where
  good_read := good_read
  good_write {x} p good := by
    unfold Shelf.within
    cases found : pick x with
    | none => simpa [found] using good
    | some T =>
      obtain ⟨Inner, rereads, inner, back⟩ := picked good found
      simpa [found] using back _ (rereads.good_write p inner)
  looks {x} good := by
    unfold Shelf.within
    cases found : pick x with
    | none => simp [pick_read, found]
    | some T =>
      obtain ⟨Inner, rereads, inner, -⟩ := picked good found
      simpa [pick_read, get_read, found] using rereads.looks inner
  read_write {x} p good := by
    unfold Shelf.within
    cases found : pick x with
    | none => simp [pick_read, found, read_read]
    | some T =>
      obtain ⟨Inner, rereads, inner, -⟩ := picked good found
      simp only [pick_read, found, read_set, get_read, read_read]
      rw [rereads.read_write p inner]

end Rereads

end Shelf

end TerraformPins
