import TerraformPins.Proofs.Repetition

/-!
# Changes and the slots they come from

The records of an update stand in one list, upgrade by upgrade and slot by slot. With the number of
its slot at each of them, the records of one slot can be picked out. They are what the machine of
this slot records when it runs alone, so a property of all records is a property of the records of a
single slot.

One such property is that a change leads to another version than the one it starts from. Wherever an
upgrade has written, the slot holds a quoted string, and a quoted string is changed only if it
differs from what is wanted. In the beginning a slot may hold something else that reads like the
wanted version, such as the number `5.0`. This is replaced by the string, and a change is recorded
whose two versions are the same.

## Main definitions

* `numbered` — the records of machines, with the numbers of the machines
* `recordsOf` — the records of one machine
* `Document.numberedChanges`, `Document.numberedRefusals` — the records of an update, with the
  numbers of the slots

## Main results

* `recordsOf_numbered` — the records that come from a machine are those of its own run
* `Document.update_moves` — which changes lead to another version
-/

namespace TerraformPins

open Hcl

/-- The records of machines, with the numbers of the machines that they come from. -/
def numbered {σ ρ : Type} (step : σ → Upgrade → σ) (record? : Upgrade → σ → Option ρ) :
    List Upgrade → List σ → List (Nat × ρ)
  | [], _ => []
  | u :: us, states =>
    (states.zipIdx.filterMap fun x => (record? u x.1).map (x.2, ·)) ++
      numbered step record? us (states.map (step · u))

/-- The records that come from the machine with the number `i`. -/
def recordsOf {ρ : Type} (i : Nat) (xs : List (Nat × ρ)) : List ρ :=
  xs.filterMap fun x => if x.1 = i then some x.2 else none

theorem mem_recordsOf {ρ : Type} {i : Nat} {xs : List (Nat × ρ)} {r : ρ} :
    r ∈ recordsOf i xs ↔ (i, r) ∈ xs := by
  simp [recordsOf]

section Numbers

variable {σ ρ : Type} {step : σ → Upgrade → σ} {record? : Upgrade → σ → Option ρ}

/-- Without their numbers the records are the records. -/
theorem map_numbered (us : List Upgrade) (states : List σ) :
    (numbered step record? us states).map Prod.snd = records step record? us states := by
  induction us generalizing states with
  | nil => rfl
  | cons u us ih =>
    have first (xs : List (σ × Nat)) :
        (xs.filterMap fun x => (record? u x.1).map (x.2, ·)).map Prod.snd =
          (xs.map Prod.fst).filterMap (record? u) := by
      rw [List.map_filterMap, List.filterMap_map]
      congr 1
      funext x
      cases h : record? u x.1 <;> simp [h]
    rw [numbered, records, List.map_append, ih, first, List.zipIdx_map_fst]

@[simp] theorem records_nil (us : List Upgrade) : records step record? us [] = [] :=
  records_eq_nil fun _ member => absurd member List.not_mem_nil

/-- A machine on its own records what it does first and then what it does later. -/
theorem records_singleton_cons (u : Upgrade) (us : List Upgrade) (s : σ) :
    records step record? (u :: us) [s] =
      (record? u s).toList ++ records step record? us [step s u] := by
  rw [records]
  cases h : record? u s <;> simp [h]

/-- What one upgrade leaves at the machine with the number `i`. -/
theorem recordsOf_zipIdx (f : σ → Option ρ) (states : List σ) (i k : Nat) :
    recordsOf (i + k) ((states.zipIdx k).filterMap fun x => (f x.1).map (x.2, ·)) =
      (states[i]?.bind f).toList := by
  induction states generalizing i k with
  | nil => rfl
  | cons s states ih =>
    rw [List.zipIdx_cons, List.filterMap_cons]
    cases i with
    | zero =>
      -- The machines behind the first one have larger numbers.
      have behind : recordsOf k ((states.zipIdx (k + 1)).filterMap fun x => (f x.1).map (x.2, ·)) =
          [] := by
        refine List.eq_nil_iff_forall_not_mem.mpr fun r member => ?_
        obtain ⟨x, inside, here⟩ := List.mem_filterMap.mp (mem_recordsOf.mp member)
        obtain ⟨_, -, same⟩ := Option.map_eq_some_iff.mp here
        have later := List.le_snd_of_mem_zipIdx inside
        rw [(Prod.mk.inj same).1] at later
        exact absurd later (by simp)
      rw [Nat.zero_add]
      cases here : f s <;> simpa [recordsOf, here] using behind
    | succ i =>
      have rest := ih i (k + 1)
      rw [show i + (k + 1) = i + 1 + k by omega] at rest
      rw [List.getElem?_cons_succ, ← rest]
      cases here : f s <;> simp [recordsOf]

/-- The records that come from a machine are those of its own run. -/
theorem recordsOf_numbered (us : List Upgrade) (states : List σ) (i : Nat) :
    recordsOf i (numbered step record? us states) =
      records step record? us states[i]?.toList := by
  induction us generalizing states with
  | nil => rfl
  | cons u us ih =>
    have first := recordsOf_zipIdx (record? u) states i 0
    have split : recordsOf i (numbered step record? (u :: us) states) =
        (states[i]?.bind (record? u)).toList ++
          recordsOf i (numbered step record? us (states.map (step · u))) := by
      rw [← first]
      exact List.filterMap_append
    rw [split, ih, List.getElem?_map]
    cases states[i]? with
    | none => rfl
    | some s => exact (records_singleton_cons u us s).symm

theorem mem_numbered {us : List Upgrade} {states : List σ} {i : Nat} {r : ρ} :
    (i, r) ∈ numbered step record? us states ↔
      ∃ s, states[i]? = some s ∧ r ∈ records step record? us [s] := by
  rw [← mem_recordsOf, recordsOf_numbered]
  cases states[i]? <;> simp

end Numbers

namespace Document

variable (d : Document) (us : List Upgrade) (addMissing : Bool)

/-- The changes of an update, with the numbers of the slots. -/
abbrev numberedChanges : List (Nat × Change) :=
  numbered (Slot.step addMissing) (fun u s => u.change? addMissing s.site) us d.slots

/-- The refusals of an update, with the numbers of the slots. -/
abbrev numberedRefusals : List (Nat × Refusal) :=
  numbered (Slot.step addMissing) (fun u s => u.refusal? addMissing s.site) us d.slots

theorem map_numberedChanges :
    (d.numberedChanges us addMissing).map Prod.snd = (d.update us addMissing).1.changes := by
  rw [map_numbered, (update_eq addMissing us d).1]

theorem map_numberedRefusals :
    (d.numberedRefusals us addMissing).map Prod.snd = (d.update us addMissing).1.refusals := by
  rw [map_numbered, (update_eq addMissing us d).1]

end Document

section Moves

variable {addMissing : Bool} {u : Upgrade} {us : List Upgrade} {s : Slot} {c : Change}

/-- A recorded change was admitted, starts from the version that is there and leads to the one of
the upgrade, which is not the quoted string that is there. -/
theorem change?_eq_some_iff :
    u.change? addMissing s.site = some c ↔
      u.Admits addMissing s.pin ∧ s.site.literal ≠ some u.target ∧
        c = ⟨s.kind, s.name, s.pin.version, u.target⟩ := by
  have changes : s.site.changes u.target = true ↔ s.site.literal ≠ some u.target := by
    simp [Site.changes]
  rw [← changes, Upgrade.change?]
  split
  case isTrue both =>
    rw [Option.some.injEq, eq_comm]
    exact ⟨fun same => ⟨both.1, both.2, same⟩, fun all => all.2.2⟩
  case isFalse missing =>
    exact ⟨fun none => absurd none.symm (Option.some_ne_none _),
      fun all => absurd ⟨all.1, all.2.1⟩ missing⟩

/-- An upgrade records no change exactly if it leaves the slot as it is. -/
theorem change?_eq_none_iff : u.change? addMissing s.site = none ↔ s.step addMissing u = s := by
  rw [Upgrade.change?, ite_eq_right_iff]
  constructor
  · intro nothing
    rw [← put_choice, Upgrade.choice, if_neg (fun both => Option.some_ne_none _ (nothing both)),
      Slot.put_none]
  · -- A write leaves the quoted string that was wanted, and then nothing would have changed.
    intro stays both
    rw [Slot.step, if_pos (show u.Admits addMissing s.pin from both.1)] at stays
    have held : (s.write u.target).site.changes u.target = false :=
      ((s.write u.target).changes_eq_false_iff u.target).mpr rfl
    rw [stays, both.2] at held
    cases held

/-- A quoted version reads like its string. -/
theorem version_of_literal {value : String} (quoted : s.site.literal = some value) :
    s.pin.version = some value := by
  have held : s.held = some (.text value.toList) :=
    (s.changes_eq_false_iff value).mp (by simp [Site.changes, quoted])
  rw [← Slot.write_eq_self held, Slot.pin_write]

/-- A change leads back to its own version exactly if something other than a quoted string reads
like the wanted version. -/
theorem change?_before_eq_after_iff (recorded : u.change? addMissing s.site = some c) :
    c.before = some c.after ↔ s.site.literal = none ∧ s.pin.version = some c.after := by
  obtain ⟨-, differs, rfl⟩ := change?_eq_some_iff.mp recorded
  constructor
  · intro same
    refine ⟨?_, same⟩
    cases quoted : s.site.literal with
    | none => rfl
    | some value =>
      have reads := version_of_literal quoted
      rw [show s.pin.version = some u.target from same] at reads
      exact absurd (quoted.trans reads.symm) differs
  · exact fun both => both.2

theorem literal_write (version : String) : (s.write version).site.literal = some version := by
  rw [Slot.site_write]

/-- From a quoted version all changes lead to other versions. -/
theorem slotChanges_of_literal (quoted : s.site.literal ≠ none) :
    ∀ c ∈ slotChanges addMissing us [s], c.before ≠ some c.after := by
  -- A step leaves a quoted version: the one of the upgrade or the one that was there.
  induction us generalizing s with
  | nil => exact fun c member => absurd member List.not_mem_nil
  | cons u us ih =>
    intro c member
    rw [slotChanges, records_singleton_cons] at member
    rcases List.mem_append.mp member with here | later
    · have recorded := Option.mem_toList.mp here
      exact fun same => quoted ((change?_before_eq_after_iff recorded).mp same).1
    · refine ih ?_ c later
      unfold Slot.step
      split
      · simp [literal_write]
      · exact quoted

/-- Only the first change at a slot can lead back to its own version. -/
theorem slotChanges_cons {cs : List Change} (recorded : slotChanges addMissing us [s] = c :: cs) :
    (c.before = some c.after ↔ s.site.literal = none ∧ s.pin.version = some c.after) ∧
      ∀ later ∈ cs, later.before ≠ some later.after := by
  -- As long as nothing is recorded the slot stays what it is; then it holds a quoted string.
  induction us with
  | nil => cases recorded
  | cons u us ih =>
    rw [slotChanges, records_singleton_cons] at recorded
    cases here : u.change? addMissing s.site with
    | none =>
      rw [here, change?_eq_none_iff.mp here] at recorded
      exact ih recorded
    | some first =>
      rw [here] at recorded
      obtain ⟨rfl, rfl⟩ := List.cons.inj recorded
      refine ⟨change?_before_eq_after_iff here, ?_⟩
      obtain ⟨admits, -, -⟩ := change?_eq_some_iff.mp here
      rw [Slot.step, if_pos admits]
      exact slotChanges_of_literal (by simp [literal_write])

end Moves

namespace Document

/-- Which changes of an update lead to another version.

* The changes are those of the slots, and the changes of each slot are picked out by its number.
* The first change at a slot leads to the version that it starts from exactly if the slot holds
  something other than a quoted string that reads like this version. All further ones lead to other
  versions.
* So if all versions in a document are quoted strings, every change leads to another version. -/
theorem update_moves (d : Document) (us : List Upgrade) (addMissing : Bool) :
    ((d.update us addMissing).1.changes = (d.numberedChanges us addMissing).map Prod.snd ∧
      ∀ x ∈ d.numberedChanges us addMissing, x.1 < d.slots.length) ∧
    (∀ i s c cs, d.slots[i]? = some s → recordsOf i (d.numberedChanges us addMissing) = c :: cs →
      (c.before = some c.after ↔ s.site.literal = none ∧ s.pin.version = some c.after) ∧
        ∀ later ∈ cs, later.before ≠ some later.after) ∧
    ((∀ s ∈ d.slots, s.pin.version ≠ none → s.site.literal ≠ none) →
      ∀ c ∈ (d.update us addMissing).1.changes, c.before ≠ some c.after) := by
  have first : ∀ i s c cs, d.slots[i]? = some s →
      recordsOf i (d.numberedChanges us addMissing) = c :: cs →
      (c.before = some c.after ↔ s.site.literal = none ∧ s.pin.version = some c.after) ∧
        ∀ later ∈ cs, later.before ≠ some later.after := by
    intro i s c cs found recorded
    rw [recordsOf_numbered, found] at recorded
    exact slotChanges_cons recorded
  refine ⟨⟨(d.map_numberedChanges us addMissing).symm, ?_⟩, first, fun quoted c member => ?_⟩
  · rintro ⟨i, c⟩ member
    obtain ⟨s, found, -⟩ := mem_numbered.mp member
    exact (List.getElem?_eq_some_iff.mp found).1
  · -- The change belongs to a slot, where it is the first one or a later one.
    rw [← map_numberedChanges] at member
    obtain ⟨⟨i, c⟩, numbered, rfl⟩ := List.mem_map.mp member
    obtain ⟨s, found, -⟩ := mem_numbered.mp numbered
    cases recorded : recordsOf i (d.numberedChanges us addMissing) with
    | nil =>
      have none := mem_recordsOf.mpr numbered
      rw [recorded] at none
      cases none
    | cons start cs =>
      obtain ⟨here, later⟩ := first i s start cs found recorded
      have member := mem_recordsOf.mpr numbered
      rw [recorded] at member
      rcases List.mem_cons.mp member with rfl | behind
      · intro same
        obtain ⟨unquoted, version⟩ := here.mp same
        exact quoted s (List.mem_of_getElem? found) (by simp [version]) unquoted
      · exact later _ behind

/-- A module whose version is a number. -/
def numberVersion : String :=
  "module \"a\" \x7b\n  source = \"s\"\n  version = 5.0\n\x7d\n"

/-- The version `"5.0"` for this module. -/
def stringVersion : Upgrade :=
  { kind := .module, key := some "s", target := "5.0" }

/-- The same version and then the version `"6.0"`. -/
def stringVersions : List Upgrade :=
  [stringVersion, { stringVersion with target := "6.0" }]

theorem update_moves_numberVersion :
    ∃ d e, read? numberVersion = some d ∧ read? Job.escapedLetter = some e ∧
      (∃ s c cs, (d.slots[0]? = some s ∧
        recordsOf 0 (d.numberedChanges stringVersions false) = c :: cs) ∧
        (c.before = some c.after ↔ s.site.literal = none ∧ s.pin.version = some c.after) ∧
        ∀ later ∈ cs, later.before ≠ some later.after) ∧
      (∀ s ∈ e.slots, s.pin.version ≠ none → s.site.literal ≠ none) ∧
      ∀ c ∈ (e.update stringVersions false).1.changes, c.before ≠ some c.after := by
  have recorded : (read? numberVersion).map (fun d =>
      (d.slots.length, recordsOf 0 (d.numberedChanges stringVersions false))) =
      some (1, [⟨.module, "a", some "5.0", "5.0"⟩, ⟨.module, "a", some "5.0", "6.0"⟩]) := by
    decide +kernel
  have quoted : (read? Job.escapedLetter).map (fun e =>
      decide (∀ s ∈ e.slots, s.pin.version ≠ none → s.site.literal ≠ none)) = some true := by
    decide +kernel
  obtain ⟨d, read, both⟩ := Option.map_eq_some_iff.mp recorded
  obtain ⟨count, changes⟩ := Prod.mk.inj both
  obtain ⟨e, readToo, decided⟩ := Option.map_eq_some_iff.mp quoted
  have bound : 0 < d.slots.length := by omega
  have found : d.slots[0]? = some d.slots[0] := List.getElem?_eq_getElem bound
  exact ⟨d, e, read, readToo,
    ⟨_, _, _, ⟨found, changes⟩, (d.update_moves stringVersions false).2.1 0 _ _ _ found changes⟩,
    of_decide_eq_true decided, (e.update_moves stringVersions false).2.2
    (of_decide_eq_true decided)⟩

/-- The number is replaced by the string that it reads like, and a change is recorded. -/
theorem update_numberVersion :
    ∃ d, read? numberVersion = some d ∧
      ∃ c ∈ (d.update [stringVersion] false).1.changes, c.before = some c.after := by
  have evaluated : (read? numberVersion).map (fun d =>
      decide (∃ c ∈ (d.update [stringVersion] false).1.changes, c.before = some c.after)) =
      some true := by
    decide +kernel
  obtain ⟨d, read, decided⟩ := Option.map_eq_some_iff.mp evaluated
  exact ⟨d, read, of_decide_eq_true decided⟩

end Document

end TerraformPins
