import TerraformPins.Proofs.Slot.Document

/-!
# An update as many small machines

An update walks over the whole document once for every upgrade. Seen from a slot nothing of this
matters: the upgrades come one after another, and each of them writes its version or does not,
depending on what this slot says at the time. The records are those of the slots, upgrade by upgrade
and in the order of the text.

For a pin the same is true as long as nothing but its version is changed. That can fail for the
source of a provider, since a version that is added to an object takes over what stands behind the
last entry.

## Main definitions

* `Slot.step`, `Site.step` — what an upgrade does at a slot, and what it does if only the version
  changes
* `records` — the records of a list of machines
* `Document.UpdatesAlone` — an update does to each site what `Site.step` does
* `Linked` — changes that lead from one version to another

## Main results

* `Document.update_eq` — an update of a document is the run of the machines of its slots
* `linked_records` — the changes of one slot lead from its first version to its last
* `updatesAlone_iff` — when an update changes versions only
-/

namespace TerraformPins

open Hcl

namespace Outcome

/-- Adds more records. The document was changed if there are changes among them. -/
def add (o : Outcome) (changes : List Change) (refusals : List Refusal) : Outcome :=
  ⟨o.changed || !changes.isEmpty, o.changes ++ changes, o.refusals ++ refusals⟩

@[simp] theorem add_nil (o : Outcome) : o.add [] [] = o := by
  simp [add]

/-- Records that are added one after another are added together. -/
theorem add_add (o : Outcome) (cs cs' : List Change) (rs rs' : List Refusal) :
    (o.add cs rs).add cs' rs' = o.add (cs ++ cs') (rs ++ rs') := by
  cases cs <;> simp [add]

end Outcome

namespace Upgrade

variable (u : Upgrade) (addMissing : Bool)

/-- Whether an upgrade addresses a pin and admits it. -/
def Admits (p : Pin) : Prop :=
  u.addresses p = true ∧ u.verdict addMissing p = .admitted

instance (p : Pin) : Decidable (u.Admits addMissing p) :=
  inferInstanceAs (Decidable (_ ∧ _))

/-- The change that an upgrade records at a site: it admits the pin, and the version is not the
quoted string already. -/
def change? (x : Site) : Option Change :=
  if u.Admits addMissing x.pin ∧ x.changes u.target = true then
    some ⟨x.pin.kind, x.pin.name, x.pin.version, u.target⟩
  else none

/-- The refusal that an upgrade records at a site: it addresses the pin and does not admit it. -/
def refusal? (x : Site) : Option Refusal :=
  if u.addresses x.pin = true ∧ u.verdict addMissing x.pin ≠ .admitted then
    some ⟨x.pin.kind, x.pin.name, u.verdict addMissing x.pin, x.pin.version⟩
  else none

/-- The version that an upgrade writes at a site. -/
def choice (x : Site) : Option String :=
  if u.Admits addMissing x.pin ∧ x.changes u.target = true then some u.target else none

/-- A visit adds the records of the upgrade at the site. -/
theorem visit_eq (o : Outcome) (x : Site) :
    u.visit addMissing o x =
      (o.add (u.change? addMissing x).toList (u.refusal? addMissing x).toList,
        u.choice addMissing x) := by
  unfold visit change? refusal? choice
  by_cases addressed : u.addresses x.pin = true
  · cases verdict : u.verdict addMissing x.pin with
    | admitted =>
      have admits : u.Admits addMissing x.pin := ⟨addressed, verdict⟩
      by_cases changes : x.changes u.target = true <;>
        simp [addressed, verdict, admits, changes, Outcome.addChange, Outcome.add]
    | _ =>
      have refuses : ¬ u.Admits addMissing x.pin := fun admits => by simp [admits.2] at verdict
      simp [addressed, verdict, refuses, Outcome.addRefusal, Outcome.add]
  · have refuses : ¬ u.Admits addMissing x.pin := fun admits => addressed admits.1
    simp [addressed, refuses]

end Upgrade

/-- What an upgrade does at a site if it changes nothing but the version. -/
def Site.step (addMissing : Bool) (x : Site) (u : Upgrade) : Site :=
  if u.Admits addMissing x.pin then ⟨x.pinAt u.target, some u.target⟩ else x

/-- What an upgrade does at a slot. -/
def Slot.step (addMissing : Bool) (s : Slot) (u : Upgrade) : Slot :=
  if u.Admits addMissing s.pin then s.write u.target else s

/-- The records of machines, upgrade by upgrade and for each upgrade in the order of the
machines. -/
def records {σ ρ : Type} (step : σ → Upgrade → σ) (record? : Upgrade → σ → Option ρ) :
    List Upgrade → List σ → List ρ
  | [], _ => []
  | u :: us, states =>
    states.filterMap (record? u) ++ records step record? us (states.map (step · u))

/-- The changes recorded at slots. -/
abbrev slotChanges (addMissing : Bool) : List Upgrade → List Slot → List Change :=
  records (Slot.step addMissing) fun u s => u.change? addMissing s.site

/-- The refusals recorded at slots. -/
abbrev slotRefusals (addMissing : Bool) : List Upgrade → List Slot → List Refusal :=
  records (Slot.step addMissing) fun u s => u.refusal? addMissing s.site

/-- Changes that lead from one version to another: each starts where the one before it ended. -/
def Linked : Option String → List Change → Option String → Prop
  | first, [], last => first = last
  | first, c :: cs, last => c.before = first ∧ Linked (some c.after) cs last

section Machines

variable (addMissing : Bool) (u : Upgrade) (us : List Upgrade)

theorem put_choice (s : Slot) : s.put (u.choice addMissing s.site) = s.step addMissing u := by
  unfold Upgrade.choice Slot.step
  by_cases admits : u.Admits addMissing s.pin
  · rw [if_pos admits]
    cases changes : s.site.changes u.target with
    | true => rw [if_pos ⟨admits, rfl⟩, Slot.put_some]
    | false =>
      have held := (s.changes_eq_false_iff u.target).mp changes
      simp [Slot.write_eq_self held]
  · rw [if_neg admits, if_neg fun both => admits both.1, Slot.put_none]

/-- A walk of one upgrade adds the records at all slots, in order. -/
theorem choices_visit (o : Outcome) (slots : List Slot) :
    Document.choices (u.visit addMissing) o slots =
      (o.add (slots.filterMap fun s => u.change? addMissing s.site)
          (slots.filterMap fun s => u.refusal? addMissing s.site),
        slots.map fun s => u.choice addMissing s.site) := by
  induction slots generalizing o with
  | nil => simp
  | cons s slots ih =>
    simp only [Document.choices, Upgrade.visit_eq, ih, List.filterMap_cons, Outcome.add_add]
    cases u.change? addMissing s.site <;> cases u.refusal? addMissing s.site <;> rfl

/-- One upgrade takes one step at every slot and records what it does there. -/
theorem Document.applyUpgrade_eq (o : Outcome) (d : Document) :
    (applyUpgrade addMissing (o, d) u).1 =
        o.add (d.slots.filterMap fun s => u.change? addMissing s.site)
          (d.slots.filterMap fun s => u.refusal? addMissing s.site) ∧
      (applyUpgrade addMissing (o, d) u).2.slots = d.slots.map (·.step addMissing u) := by
  rw [applyUpgrade, walk_eq, choices_visit]
  refine ⟨rfl, ?_⟩
  rw [slots_write]
  apply List.ext_getElem?
  intro i
  rw [List.getElem?_mapIdx, List.getElem?_map]
  cases found : d.slots[i]? with
  | none => rfl
  | some s => simp [Writes.ofList, found, put_choice]

/-- An update of a document is the run of the machines of its slots. -/
theorem Document.foldl_applyUpgrade (o : Outcome) (d : Document) :
    (us.foldl (applyUpgrade addMissing) (o, d)).1 =
        o.add (slotChanges addMissing us d.slots) (slotRefusals addMissing us d.slots) ∧
      (us.foldl (applyUpgrade addMissing) (o, d)).2.slots =
        d.slots.map (us.foldl (Slot.step addMissing)) := by
  induction us generalizing o d with
  | nil => simp [records]
  | cons u us ih =>
    obtain ⟨recorded, stepped⟩ := applyUpgrade_eq addMissing u o d
    have rest := ih (applyUpgrade addMissing (o, d) u).1 (applyUpgrade addMissing (o, d) u).2
    rw [List.foldl_cons]
    refine ⟨rest.1.trans ?_, rest.2.trans ?_⟩
    · rw [recorded, stepped, Outcome.add_add, slotChanges, slotRefusals, records, records]
    · simp [stepped]

theorem Document.update_eq (d : Document) :
    (d.update us addMissing).1 =
        ⟨!(slotChanges addMissing us d.slots).isEmpty, slotChanges addMissing us d.slots,
          slotRefusals addMissing us d.slots⟩ ∧
      (d.update us addMissing).2.slots = d.slots.map (us.foldl (Slot.step addMissing)) := by
  have run := foldl_applyUpgrade addMissing us {} d
  simpa [update, Outcome.add] using run

/-- A document was changed exactly if a change is recorded. -/
theorem Document.changed_update (d : Document) :
    (d.update us addMissing).1.changed = !(d.update us addMissing).1.changes.isEmpty := by
  rw [(update_eq addMissing us d).1]

/-- A step changes nothing but the version and the source. -/
theorem pin_step (s : Slot) :
    ∃ source version, (s.step addMissing u).pin =
      { s.pin with providerSource := source, version := version } := by
  unfold Slot.step
  split
  · exact ⟨_, _, s.pin_write u.target⟩
  · exact ⟨_, _, rfl⟩

theorem pin_foldl_step (s : Slot) :
    ∃ source version, (us.foldl (Slot.step addMissing) s).pin =
      { s.pin with providerSource := source, version := version } := by
  induction us generalizing s with
  | nil => exact ⟨_, _, rfl⟩
  | cons u us ih =>
    obtain ⟨_, _, first⟩ := pin_step addMissing u s
    obtain ⟨source, version, rest⟩ := ih (s.step addMissing u)
    exact ⟨source, version, by rw [List.foldl_cons, rest, first]⟩

theorem linked_step (s : Slot) {cs : List Change} {last : Option String}
    (h : Linked (s.step addMissing u).pin.version cs last) :
    Linked s.pin.version ((u.change? addMissing s.site).toList ++ cs) last := by
  unfold Slot.step at h
  unfold Upgrade.change?
  by_cases admits : u.Admits addMissing s.site.pin
  · rw [if_pos (show u.Admits addMissing s.pin from admits)] at h
    cases changes : s.site.changes u.target with
    | true =>
      rw [if_pos ⟨admits, rfl⟩]
      refine ⟨rfl, ?_⟩
      rwa [Slot.pin_write] at h
    | false =>
      rw [Slot.write_eq_self ((s.changes_eq_false_iff u.target).mp changes)] at h
      simpa using h
  · rw [if_neg (show ¬ u.Admits addMissing s.pin from admits)] at h
    rw [if_neg fun both => admits both.1]
    exact h

/-- The changes of one slot lead from its first version to its last. -/
theorem linked_records (s : Slot) :
    Linked s.pin.version (slotChanges addMissing us [s])
      (us.foldl (Slot.step addMissing) s).pin.version := by
  induction us generalizing s with
  | nil => exact rfl
  | cons u us ih =>
    have rest := linked_step addMissing u s (ih (s.step addMissing u))
    have first : [s].filterMap (fun s => u.change? addMissing s.site) =
        (u.change? addMissing s.site).toList := by
      cases h : u.change? addMissing s.site <;> simp [h]
    simpa only [slotChanges, records, first, List.map_cons, List.map_nil,
      List.foldl_cons] using rest

/-- Either nothing was written at a slot, or it holds a version and the settled source. -/
theorem foldl_step_cases (s : Slot) :
    us.foldl (Slot.step addMissing) s = s ∨
      ∃ version, us.foldl (Slot.step addMissing) s = s.write version := by
  induction us generalizing s with
  | nil => exact .inl rfl
  | cons u us ih =>
    rw [List.foldl_cons]
    unfold Slot.step
    split
    · refine .inr ?_
      obtain same | ⟨version, same⟩ := ih (s.write u.target)
      · exact ⟨u.target, same⟩
      · exact ⟨version, same⟩
    · exact ih s

/-- A version that is there is never taken away. -/
theorem version_foldl_step {x : Site} (h : x.pin.version ≠ none) :
    (us.foldl (Site.step addMissing) x).pin.version ≠ none := by
  induction us generalizing x with
  | nil => exact h
  | cons u us ih =>
    rw [List.foldl_cons]
    refine ih ?_
    unfold Site.step
    split
    · simp [Site.pinAt]
    · exact h

/-- Whether upgrades change nothing but the version at a slot: its source is steady, or no version
is written there. -/
def Slot.Alone (us : List Upgrade) (s : Slot) : Prop :=
  s.Steady ∨ (us.foldl (Site.step addMissing) s.site).pin.version = none

theorem steady_write (s : Slot) (version : String) : (s.write version).Steady := by
  unfold Slot.Steady
  rw [Slot.settled_write]
  rfl

variable {addMissing us}

/-- One step at a slot that is alone is the step at its site, and the slot stays alone. -/
theorem Slot.Alone.step {u : Upgrade} {s : Slot} (h : s.Alone addMissing (u :: us)) :
    (s.step addMissing u).site = s.site.step addMissing u ∧
      (s.step addMissing u).Alone addMissing us := by
  have admitted : s.Steady → (s.step addMissing u).site = s.site.step addMissing u := by
    intro steady
    unfold Slot.step Site.step
    split
    case isTrue admits =>
      rw [if_pos (show u.Admits addMissing s.site.pin from admits), Slot.site_write, steady]
      rfl
    case isFalse refuses =>
      rw [if_neg (show ¬ u.Admits addMissing s.site.pin from refuses)]
  rcases h with steady | missing
  · -- The site follows the writes, and goes on doing so.
    refine ⟨admitted steady, .inl ?_⟩
    unfold Slot.step
    split
    · exact steady_write s _
    · exact steady
  · -- A site that has no version in the end was never written.
    have refuses : ¬ u.Admits addMissing s.site.pin := by
      intro admits
      rw [List.foldl_cons] at missing
      refine version_foldl_step addMissing us ?_ missing
      rw [Site.step, if_pos admits]
      simp [Site.pinAt]
    have stays : s.step addMissing u = s := if_neg refuses
    have staysToo : s.site.step addMissing u = s.site := if_neg refuses
    rw [stays, staysToo]
    refine ⟨rfl, .inr ?_⟩
    rwa [List.foldl_cons, staysToo] at missing

theorem Slot.Alone.foldl {s : Slot} (h : s.Alone addMissing us) :
    (us.foldl (Slot.step addMissing) s).site = us.foldl (Site.step addMissing) s.site := by
  induction us generalizing s with
  | nil => rfl
  | cons u us ih =>
    rw [List.foldl_cons, List.foldl_cons, ← h.step.1]
    exact ih h.step.2

/-- A slot that is not alone reads another source in the end. -/
theorem Slot.alone_of_site_eq {s : Slot}
    (h : (us.foldl (Slot.step addMissing) s).site.pin.providerSource = s.pin.providerSource)
    (versions : (us.foldl (Slot.step addMissing) s).site.pin.version =
      (us.foldl (Site.step addMissing) s.site).pin.version) : s.Alone addMissing us := by
  by_cases steady : s.Steady
  · exact .inl steady
  · refine .inr ?_
    have exposed := (Slot.not_steady_iff.mp steady).1
    rcases foldl_step_cases addMissing us s with same | ⟨version, same⟩
    · rw [← versions, same]
      simp [Slot.site, Site.ofValue, s.held_eq_none exposed]
    · rw [same, Slot.site_write] at h
      exact absurd h steady

theorem providerSource_foldl_step (x : Site) :
    (us.foldl (Site.step addMissing) x).pin.providerSource = x.pin.providerSource := by
  induction us generalizing x with
  | nil => rfl
  | cons u us ih =>
    rw [List.foldl_cons, ih]
    unfold Site.step
    split <;> rfl

/-- The records at slots that are alone are those of their sites. -/
theorem records_of_alone {ρ : Type} (record? : Upgrade → Site → Option ρ) {slots : List Slot}
    (h : ∀ s ∈ slots, s.Alone addMissing us) :
    records (Slot.step addMissing) (fun u s => record? u s.site) us slots =
      records (Site.step addMissing) record? us (slots.map Slot.site) := by
  induction us generalizing slots with
  | nil => rfl
  | cons u us ih =>
    have stepped : (slots.map (·.step addMissing u)).map Slot.site =
        (slots.map Slot.site).map (·.step addMissing u) := by
      rw [List.map_map, List.map_map]
      exact List.map_congr_left fun s member => (h s member).step.1
    have later : ∀ s ∈ slots.map (·.step addMissing u), s.Alone addMissing us := by
      intro s member
      obtain ⟨t, inside, rfl⟩ := List.mem_map.mp member
      exact (h t inside).step.2
    rw [records, records, ih later, stepped, List.filterMap_map]
    rfl

end Machines

namespace Document

/-- An update does to each site, and records there, what upgrades do that change nothing but the
version. -/
def UpdatesAlone (d : Document) (upgrades : List Upgrade) (addMissing : Bool) : Prop :=
  (d.update upgrades addMissing).2.sites = d.sites.map (upgrades.foldl (Site.step addMissing)) ∧
  (d.update upgrades addMissing).1.changes =
    records (Site.step addMissing) (Upgrade.change? · addMissing) upgrades d.sites ∧
  (d.update upgrades addMissing).1.refusals =
    records (Site.step addMissing) (Upgrade.refusal? · addMissing) upgrades d.sites

theorem updatesAlone_iff (d : Document) (upgrades : List Upgrade) (addMissing : Bool) :
    d.UpdatesAlone upgrades addMissing ↔ ∀ s ∈ d.slots, s.Alone addMissing upgrades := by
  obtain ⟨recorded, ended⟩ := update_eq addMissing upgrades d
  constructor
  · rintro ⟨sites, -, -⟩ s member
    rw [sites_eq, sites_eq, ended, List.map_map, List.map_map] at sites
    have here := List.map_inj_left.mp sites s member
    simp only [Function.comp_apply] at here
    refine Slot.alone_of_site_eq ?_ (by rw [here])
    rw [here, providerSource_foldl_step]
    rfl
  · intro alone
    refine ⟨?_, ?_, ?_⟩
    · rw [sites_eq, sites_eq, ended, List.map_map, List.map_map]
      exact List.map_congr_left fun s member => (alone s member).foldl
    · rw [recorded, sites_eq]
      exact records_of_alone (fun u => u.change? addMissing) alone
    · rw [recorded, sites_eq]
      exact records_of_alone (fun u => u.refusal? addMissing) alone

/-- An update is the run of one machine for each slot.

* The slots afterwards are those of before, each after all the upgrades in turn, and the records
  are those of the machines.
* At each slot nothing has happened, or a version was written. Kind, name and key of its pin stay,
  and its changes lead from its first version to its last.
* The update changes nothing but versions, that is it does to each site what the upgrades do that
  look at this site alone, exactly if no version was added behind a source that reads differently
  without what stood behind it. -/
theorem update_refines (d : Document) (upgrades : List Upgrade) (addMissing : Bool) :
    ((d.update upgrades addMissing).2.slots =
        d.slots.map (upgrades.foldl (Slot.step addMissing)) ∧
      (d.update upgrades addMissing).1.changes = slotChanges addMissing upgrades d.slots ∧
      (d.update upgrades addMissing).1.refusals = slotRefusals addMissing upgrades d.slots) ∧
    (∀ s ∈ d.slots,
      (upgrades.foldl (Slot.step addMissing) s = s ∨
        ∃ version, upgrades.foldl (Slot.step addMissing) s = s.write version) ∧
      (∃ source version, (upgrades.foldl (Slot.step addMissing) s).pin =
        { s.pin with providerSource := source, version := version }) ∧
      Linked s.pin.version (slotChanges addMissing upgrades [s])
        (upgrades.foldl (Slot.step addMissing) s).pin.version) ∧
    (d.UpdatesAlone upgrades addMissing ↔
      ∀ s ∈ d.slots,
        ¬ (s.exposed = true ∧ ∃ e, s.source = some e ∧ e.bare.plainText ≠ e.plainText) ∨
          (upgrades.foldl (Site.step addMissing) s.site).pin.version = none) := by
  obtain ⟨recorded, ended⟩ := update_eq addMissing upgrades d
  refine ⟨⟨ended, by rw [recorded], by rw [recorded]⟩, fun s _ => ?_, ?_⟩
  · exact ⟨foldl_step_cases addMissing upgrades s, pin_foldl_step addMissing upgrades s,
      linked_records addMissing upgrades s⟩
  · rw [updatesAlone_iff]
    simp only [Slot.Alone, ← Slot.not_steady_iff, Decidable.not_not]

/-- A version that is added behind `var.x /* c */` changes what the source reads. -/
theorem not_updatesAlone_commentedSource :
    ∃ d u, read? commentedSource = some d ∧ ¬ d.UpdatesAlone [u] true := by
  let u : Upgrade := { kind := .provider, key := some "aws", target := "5.0" }
  have sources : (read? commentedSource).map (fun d =>
      (d.pins.map Pin.providerSource, (d.update [u] true).2.pins.map Pin.providerSource)) =
      some ([none, some "var.x /* c */"], [none, some "var.x"]) := by
    decide +kernel
  obtain ⟨d, read, both⟩ := Option.map_eq_some_iff.mp sources
  refine ⟨d, u, read, fun alone => ?_⟩
  have same : (d.update [u] true).2.pins.map Pin.providerSource =
      d.pins.map Pin.providerSource := by
    rw [pins, Body.pins, ← sites, alone.1, pins, Body.pins, ← sites]
    simp only [List.map_map]
    exact List.map_congr_left fun x _ => providerSource_foldl_step x
  simp only [Prod.mk.injEq] at both
  rw [both.1, both.2] at same
  simp at same

end Document

end TerraformPins
