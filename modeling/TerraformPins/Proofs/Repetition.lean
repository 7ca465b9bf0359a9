import TerraformPins.Proofs.Overwrite

/-!
# Upgrades that meet at a slot

Several upgrades can address one pin. If none of them looks at the version that is there, the last
one wins, and the same upgrades once more lead to the same text, although they may pass through
other versions again. If the upgrades look at versions, an update can be repeated without an effect
as long as no two of them meet at a pin: what one of them has admitted holds its version now, and
what it has refused it refuses again.

Both need that an upgrade addresses a pin after the update if it did so before. The source of a
provider can read differently once a version was added behind it, and then an upgrade with this
source as its key can come too late or too early.

## Main definitions

* `Upgrade.Wants` — an upgrade addresses a pin and no exception keeps it
* `lastTarget?` — the version of the last upgrade that wants a pin

## Main results

* `Document.update_again` — an update without upgrades that meet can be repeated without an effect
* `Document.update_lastWriter` — the last upgrade wins
-/

namespace TerraformPins

open Hcl

namespace Upgrade

/-- Whether an upgrade addresses a pin and neither its name nor a local source keeps it. -/
def Wants (u : Upgrade) (p : Pin) : Prop :=
  u.addresses p = true ∧ ¬ (p.kind = .module ∧ isLocalSource p.key = true) ∧
    ¬ (p.name ≠ "" ∧ Wildcard.acceptsAny u.keepNames p.name = true)

instance (u : Upgrade) (p : Pin) : Decidable (u.Wants p) :=
  inferInstanceAs (Decidable (_ ∧ _))

/-- An upgrade that does not look at the version that is there. -/
def Blind (u : Upgrade) : Prop :=
  u.onlyFrom = [] ∧ u.keepVersions = []

instance (u : Upgrade) : Decidable u.Blind :=
  inferInstanceAs (Decidable (_ ∧ _))

/-- Whether an upgrade goes on from the version that is there: it is none of those to keep and, if
there are versions to start from, one of these. A version that is missing may have to stay so. -/
def Allows (u : Upgrade) (addMissing : Bool) : Option String → Prop
  | none => addMissing = true
  | some version => version ∉ u.keepVersions ∧ (u.onlyFrom = [] ∨ version ∈ u.onlyFrom)

/-- Whether a pin can get a version: it has one, or one may be added. -/
def Open (addMissing : Bool) (p : Pin) : Prop :=
  p.version ≠ none ∨ addMissing = true

instance (addMissing : Bool) (p : Pin) : Decidable (Open addMissing p) :=
  inferInstanceAs (Decidable (_ ∨ _))

variable {u : Upgrade} {addMissing : Bool} {p q : Pin}

/-- An upgrade admits the pins that it wants and whose version it allows. -/
theorem admits_iff : u.Admits addMissing p ↔ u.Wants p ∧ u.Allows addMissing p.version := by
  unfold Admits Wants verdict
  by_cases localSource : p.kind = .module ∧ isLocalSource p.key = true
  · simp [localSource]
  · by_cases kept : p.name ≠ "" ∧ Wildcard.acceptsAny u.keepNames p.name = true
    · simp [localSource, kept]
    · rw [if_neg localSource, if_neg kept]
      cases p.version with
      | none => cases addMissing <;> simp [localSource, kept, Allows]
      | some held =>
        have allows : u.Allows addMissing (some held) ↔
            ¬ held ∈ u.keepVersions ∧ ¬ (u.onlyFrom ≠ [] ∧ held ∉ u.onlyFrom) := by
          rw [not_and_or, Decidable.not_not, Decidable.not_not, Allows]
        rw [allows]
        dsimp only
        split_ifs with keeps listed
        · simp [keeps]
        · simp [listed]
        · simp [keeps, listed, localSource, kept]

theorem Blind.admits_iff (blind : u.Blind) :
    u.Admits addMissing p ↔ u.Wants p ∧ Open addMissing p := by
  obtain ⟨anywhere, anything⟩ := blind
  rw [Upgrade.admits_iff, Open]
  cases p.version <;> simp [Allows, anywhere, anything]

/-- What an upgrade admits it addresses. -/
theorem Admits.addresses (admits : u.Admits addMissing p) : u.addresses p = true :=
  admits.1

/-- Only the kind, the key and the source of a pin matter for what addresses it. -/
theorem addresses_congr (kinds : p.kind = q.kind) (keys : p.key = q.key)
    (sources : p.providerSource = q.providerSource) : u.addresses p = u.addresses q := by
  unfold addresses
  rw [kinds, keys, sources]

/-- Only what addresses a pin, its kind, its key and its name matter for what wants it. -/
theorem wants_congr (kinds : p.kind = q.kind) (names : p.name = q.name) (keys : p.key = q.key)
    (same : u.addresses p = u.addresses q) : u.Wants p ↔ u.Wants q := by
  unfold Wants
  rw [kinds, names, keys, same]

end Upgrade

open Upgrade

/-- The version of the last upgrade that wants a pin. -/
def lastTarget? (us : List Upgrade) (p : Pin) : Option String :=
  ((us.filter (Wants · p)).getLast?).map Upgrade.target

section Slots

variable {addMissing : Bool} {u : Upgrade} {us : List Upgrade} {s : Slot}

/-- Whatever was written, the same upgrades address the slot. -/
theorem addresses_write (v w : String) :
    u.addresses (s.write v).pin = u.addresses (s.write w).pin := by
  rw [Slot.pin_write, Slot.pin_write]
  exact addresses_congr rfl rfl rfl

theorem wants_write_iff (v : String) (same : u.addresses (s.write v).pin = u.addresses s.pin) :
    u.Wants (s.write v).pin ↔ u.Wants s.pin := by
  refine wants_congr ?_ ?_ ?_ same <;> rw [Slot.pin_write]

/-- Where nothing but the version changes, the same upgrades address the slot in the end. -/
theorem addresses_of_alone (alone : s.Alone addMissing us) :
    u.addresses (us.foldl (Slot.step addMissing) s).pin = u.addresses s.pin := by
  obtain ⟨source, version, rest⟩ := pin_foldl_step addMissing us s
  refine addresses_congr (by rw [rest]) (by rw [rest]) ?_
  rw [Slot.pin, alone.foldl, providerSource_foldl_step, Slot.pin]

/-- A slot stays as it is if no upgrade moves it. -/
theorem foldl_step_eq_self (stays : ∀ u ∈ us, s.step addMissing u = s) :
    us.foldl (Slot.step addMissing) s = s := by
  induction us with
  | nil => rfl
  | cons u us ih =>
    rw [List.foldl_cons, stays u List.mem_cons_self]
    exact ih fun v member => stays v (List.mem_cons_of_mem u member)

/-- A version was written if something admits the pin. -/
theorem foldl_step_of_admitted (member : u ∈ us) (admits : u.Admits addMissing s.pin) :
    ∃ version, us.foldl (Slot.step addMissing) s = s.write version := by
  induction us with
  | nil => cases member
  | cons v us ih =>
    rw [List.foldl_cons]
    by_cases first : v.Admits addMissing s.pin
    · rw [Slot.step, if_pos first]
      obtain same | ⟨version, same⟩ := foldl_step_cases addMissing us (s.write v.target)
      · exact ⟨v.target, same⟩
      · exact ⟨version, same⟩
    · rw [Slot.step, if_neg first]
      rcases List.mem_cons.mp member with rfl | inside
      · exact absurd admits first
      · exact ih inside

/-- An upgrade that finds its version already leaves the slot as it is. -/
theorem step_write_target : (s.write u.target).step addMissing u = s.write u.target := by
  unfold Slot.step
  split
  · exact Slot.write_eq_self rfl
  · rfl

theorem step_eq_self_of_refused (refused : ¬ u.Admits addMissing s.pin) :
    s.step addMissing u = s :=
  if_neg refused

/-- Nothing is recorded where nothing is admitted. -/
theorem change?_of_refused (refused : ¬ u.Admits addMissing s.pin) :
    u.change? addMissing s.site = none :=
  if_neg fun both => refused both.1

/-- Nothing is recorded where the version is written already. -/
theorem change?_write_target : u.change? addMissing (s.write u.target).site = none := by
  have same : (s.write u.target).site.changes u.target = false :=
    ((s.write u.target).changes_eq_false_iff u.target).mpr rfl
  simp [Upgrade.change?, same]

/-- Where no other upgrade meets `u`, nothing moves the slot once the version of `u` is written. -/
theorem step_write_of_only
    (only : ∀ v ∈ us, v.addresses (s.write u.target).pin = true → v = u) (v : Upgrade)
    (member : v ∈ us) :
    (s.write u.target).step addMissing v = s.write u.target ∧
      v.change? addMissing (s.write u.target).site = none := by
  by_cases admits : v.Admits addMissing (s.write u.target).pin
  · obtain rfl := only v member admits.addresses
    exact ⟨step_write_target, change?_write_target⟩
  · exact ⟨step_eq_self_of_refused admits, change?_of_refused admits⟩

/-- Where no other upgrade meets `u`, its version is written. -/
theorem foldl_step_of_only (member : u ∈ us) (admits : u.Admits addMissing s.pin)
    (before : ∀ v ∈ us, v.addresses s.pin = true → v = u)
    (behind : ∀ v ∈ us, v.addresses (s.write u.target).pin = true → v = u) :
    us.foldl (Slot.step addMissing) s = s.write u.target := by
  induction us with
  | nil => cases member
  | cons v us ih =>
    have later : ∀ w ∈ us, w.addresses (s.write u.target).pin = true → w = u :=
      fun w inside => behind w (List.mem_cons_of_mem v inside)
    rw [List.foldl_cons]
    by_cases first : v.Admits addMissing s.pin
    · obtain rfl := before v List.mem_cons_self first.addresses
      rw [Slot.step, if_pos first]
      exact foldl_step_eq_self fun w inside => (step_write_of_only later w inside).1
    · rw [step_eq_self_of_refused first]
      rcases List.mem_cons.mp member with rfl | inside
      · exact absurd admits first
      · exact ih inside (fun w inside => before w (List.mem_cons_of_mem v inside)) later

/-- If no two upgrades meet at a slot, neither at the beginning nor in the end, none of them does
anything there in the end. -/
theorem settled_of_unmet
    (unmet : ∀ u ∈ us, ∀ v ∈ us,
      (u.addresses s.pin = true ∨ u.addresses (us.foldl (Slot.step addMissing) s).pin = true) →
      (v.addresses s.pin = true ∨ v.addresses (us.foldl (Slot.step addMissing) s).pin = true) →
      u = v) (v : Upgrade) (member : v ∈ us) :
    (us.foldl (Slot.step addMissing) s).step addMissing v = us.foldl (Slot.step addMissing) s ∧
      v.change? addMissing (us.foldl (Slot.step addMissing) s).site = none := by
  by_cases admitted : ∃ u ∈ us, u.Admits addMissing s.pin
  · obtain ⟨u, inside, admits⟩ := admitted
    obtain ⟨version, ended⟩ := foldl_step_of_admitted inside admits
    have before : ∀ w ∈ us, w.addresses s.pin = true → w = u :=
      fun w inside' addressed => unmet w inside' u inside (.inl addressed) (.inl admits.addresses)
    have behind : ∀ w ∈ us, w.addresses (s.write u.target).pin = true → w = u := by
      intro w inside' addressed
      refine unmet w inside' u inside (.inr ?_) (.inl admits.addresses)
      rwa [ended, addresses_write version u.target]
    rw [foldl_step_of_only inside admits before behind]
    exact step_write_of_only behind v member
  · have refused : ∀ u ∈ us, ¬ u.Admits addMissing s.pin :=
      fun u inside admits => admitted ⟨u, inside, admits⟩
    rw [foldl_step_eq_self fun u inside => step_eq_self_of_refused (refused u inside)]
    exact ⟨step_eq_self_of_refused (refused v member), change?_of_refused (refused v member)⟩

theorem lastTarget?_cons_of_wants {p : Pin} (wants : u.Wants p) :
    lastTarget? (u :: us) p = (lastTarget? us p).or (some u.target) := by
  unfold lastTarget?
  rw [List.filter_cons_of_pos (by simpa using wants), List.getLast?_cons]
  cases (us.filter (Wants · p)).getLast? <;> rfl

theorem lastTarget?_cons_of_not_wants {p : Pin} (refuses : ¬ u.Wants p) :
    lastTarget? (u :: us) p = lastTarget? us p := by
  unfold lastTarget?
  rw [List.filter_cons_of_neg (by simpa using refuses)]

theorem lastTarget?_eq_none {p : Pin} (unwanted : ∀ u ∈ us, ¬ u.Wants p) :
    lastTarget? us p = none := by
  have nobody : us.filter (Wants · p) = [] :=
    List.filter_eq_nil_iff.mpr fun u member => by simpa using unwanted u member
  rw [lastTarget?, nobody]
  rfl

/-- Once a version was written the same upgrades want the pin if the same address it. -/
theorem lastTarget?_write {version : String}
    (agree : ∀ u ∈ us, u.addresses (s.write version).pin = u.addresses s.pin) :
    lastTarget? us (s.write version).pin = lastTarget? us s.pin := by
  unfold lastTarget?
  rw [List.filter_congr fun u member => decide_eq_decide.mpr (wants_write_iff _ (agree u member))]

/-- Upgrades that do not look at the version leave that of the last one that wants the pin. -/
theorem foldl_step_of_blind (blind : ∀ u ∈ us, u.Blind)
    (agree : ∀ u ∈ us, ∀ v, u.addresses (s.write v).pin = u.addresses s.pin) :
    us.foldl (Slot.step addMissing) s =
      s.put (if Open addMissing s.pin then lastTarget? us s.pin else none) := by
  -- The induction is over the list, for all slots: the rest of it starts where `u` has left the
  -- slot.
  induction us generalizing s with
  | nil => simp [lastTarget?]
  | cons u us ih =>
    have blind' : ∀ v ∈ us, v.Blind := fun v member => blind v (List.mem_cons_of_mem u member)
    have agree' : ∀ v ∈ us, ∀ w, v.addresses (s.write w).pin = v.addresses s.pin :=
      fun v member => agree v (List.mem_cons_of_mem u member)
    have admits_iff : u.Admits addMissing s.pin ↔ u.Wants s.pin ∧ Open addMissing s.pin :=
      (blind u List.mem_cons_self).admits_iff
    rw [List.foldl_cons, Slot.step]
    by_cases admits : u.Admits addMissing s.pin
    · obtain ⟨wants, opened⟩ := admits_iff.mp admits
      have reopened : Open addMissing (s.write u.target).pin := .inl (by simp [Slot.pin_write])
      have rest := ih (s := s.write u.target) blind' fun v member w => addresses_write w u.target
      rw [if_pos admits, rest, if_pos opened, if_pos reopened,
        lastTarget?_write fun v member => agree' v member u.target, lastTarget?_cons_of_wants wants,
        ← Slot.put_put, Slot.put_some]
    · rw [if_neg admits, ih blind' agree']
      by_cases opened : Open addMissing s.pin
      · have refuses : ¬ u.Wants s.pin := fun wants => admits (admits_iff.mpr ⟨wants, opened⟩)
        rw [lastTarget?_cons_of_not_wants refuses]
      · rw [if_neg opened, if_neg opened]

/-- The same with what addresses the pin in the end. -/
theorem foldl_step_of_agree (blind : ∀ u ∈ us, u.Blind)
    (agree : ∀ u ∈ us,
      u.addresses (us.foldl (Slot.step addMissing) s).pin = u.addresses s.pin) :
    us.foldl (Slot.step addMissing) s =
      s.put (if Open addMissing s.pin then lastTarget? us s.pin else none) := by
  by_cases admitted : ∃ u ∈ us, u.Admits addMissing s.pin
  · obtain ⟨u, member, admits⟩ := admitted
    obtain ⟨version, ended⟩ := foldl_step_of_admitted member admits
    refine foldl_step_of_blind blind fun v inside w => ?_
    rw [addresses_write w version, ← ended]
    exact agree v inside
  · have refused : ∀ u ∈ us, ¬ u.Admits addMissing s.pin :=
      fun u member admits => admitted ⟨u, member, admits⟩
    rw [foldl_step_eq_self fun u member => step_eq_self_of_refused (refused u member)]
    split
    case isTrue opened =>
      have unwanted : ∀ u ∈ us, ¬ u.Wants s.pin := fun u member wants =>
        refused u member ((blind u member).admits_iff.mpr ⟨wants, opened⟩)
      rw [lastTarget?_eq_none unwanted, Slot.put_none]
    case isFalse => rfl

/-- The same upgrades once more leave the slot as it is. -/
theorem foldl_step_again (blind : ∀ u ∈ us, u.Blind)
    (agree : ∀ u ∈ us,
      u.addresses (us.foldl (Slot.step addMissing) s).pin = u.addresses s.pin) :
    us.foldl (Slot.step addMissing) (us.foldl (Slot.step addMissing) s) =
      us.foldl (Slot.step addMissing) s := by
  have ended := foldl_step_of_agree blind agree
  cases target : if Open addMissing s.pin then lastTarget? us s.pin else none with
  | none =>
    rw [target] at ended
    rw [ended]
    exact ended
  | some version =>
    rw [target] at ended
    have opened : Open addMissing s.pin := by
      by_contra closed
      simp [closed] at target
    rw [if_pos opened] at target
    -- The slot has a version now, so it is open even if missing versions are not added.
    have reopened : Open addMissing (s.write version).pin := .inl (by simp [Slot.pin_write])
    have there : ∀ u ∈ us, u.addresses (s.write version).pin = u.addresses s.pin := by
      intro u member
      rw [← agree u member, ended]
      rfl
    rw [ended, Slot.put_some,
      foldl_step_of_blind blind fun u member w => addresses_write w version,
      if_pos reopened, lastTarget?_write there, target]
    exact Slot.write_eq_self rfl

end Slots

/-- Machines that stay where they are and record nothing there. -/
theorem records_eq_nil {σ ρ : Type} {step : σ → Upgrade → σ} {record? : Upgrade → σ → Option ρ}
    {us : List Upgrade} {states : List σ}
    (idle : ∀ s ∈ states, ∀ u ∈ us, step s u = s ∧ record? u s = none) :
    records step record? us states = [] := by
  induction us with
  | nil => rfl
  | cons u us ih =>
    have here : states.filterMap (record? u) = [] :=
      List.filterMap_eq_nil_iff.mpr fun s member => (idle s member u List.mem_cons_self).2
    have stays : states.map (step · u) = states :=
      (List.map_congr_left fun s member => (idle s member u List.mem_cons_self).1).trans
        states.map_id'
    rw [records, here, stays]
    exact ih fun s member v inside => idle s member v (List.mem_cons_of_mem u inside)

namespace Document

variable {d : Document} {us : List Upgrade} {addMissing : Bool}

/-- An update that ends at every slot where it started leaves the document as it is. -/
theorem update_eq_self (stays : ∀ s ∈ d.slots, us.foldl (Slot.step addMissing) s = s) :
    (d.update us addMissing).2 = d := by
  rw [update_eq_write]
  refine write_eq_self fun i s version found written => ?_
  have same := foldl_step_eq_put addMissing us s
  rw [writes, found, Option.bind_some] at written
  rw [stays s (List.mem_of_getElem? found), written, Slot.put_some] at same
  rw [same]
  rfl

/-- No two upgrades meet: those that address a pin as it is before or after the update are one
upgrade. -/
def Unmet (d : Document) (us : List Upgrade) (addMissing : Bool) : Prop :=
  ∀ x ∈ d.pins.zip (d.update us addMissing).2.pins, ∀ u ∈ us, ∀ v ∈ us,
    (u.addresses x.1 = true ∨ u.addresses x.2 = true) →
    (v.addresses x.1 = true ∨ v.addresses x.2 = true) → u = v

instance : Decidable (d.Unmet us addMissing) :=
  inferInstanceAs (Decidable (∀ x ∈ _, ∀ u ∈ _, ∀ v ∈ _, _ → _ → _))

/-- A single upgrade meets no other. -/
theorem unmet_singleton (u : Upgrade) : d.Unmet [u] addMissing := by
  intro x _ v first w second _ _
  rw [List.mem_singleton.mp first, List.mem_singleton.mp second]

/-- The pins before and after an update, slot by slot. -/
theorem zip_pins (d : Document) (us : List Upgrade) (addMissing : Bool) :
    d.pins.zip (d.update us addMissing).2.pins =
      d.slots.map fun s => (s.pin, (us.foldl (Slot.step addMissing) s).pin) := by
  rw [pins_eq, pins_eq, (update_eq addMissing us d).2, List.map_map, List.zip_map']
  rfl

/-- If an update changes nothing but versions, the pins as they are before it say whether upgrades
meet. -/
theorem unmet_of_updatesAlone (alone : d.UpdatesAlone us addMissing)
    (once : ∀ p ∈ d.pins, ∀ u ∈ us, ∀ v ∈ us, u.addresses p = true → v.addresses p = true → u = v) :
    d.Unmet us addMissing := by
  rw [Unmet, zip_pins]
  intro x member u first v second
  obtain ⟨s, inside, rfl⟩ := List.mem_map.mp member
  have same : ∀ w : Upgrade,
      w.addresses (us.foldl (Slot.step addMissing) s).pin = w.addresses s.pin :=
    fun w => addresses_of_alone ((updatesAlone_iff d us addMissing).mp alone s inside)
  have here : s.pin ∈ d.pins := by
    rw [pins_eq]
    exact List.mem_map_of_mem inside
  simp only [same, or_self]
  exact once s.pin here u first v second

/-- If no two upgrades meet, the same update once more records no change and leaves the document as
it is. -/
theorem update_again (unmet : d.Unmet us addMissing) :
    ((d.update us addMissing).2.update us addMissing).1.changes = [] ∧
      ((d.update us addMissing).2.update us addMissing).1.changed = false ∧
      ((d.update us addMissing).2.update us addMissing).2 = (d.update us addMissing).2 ∧
      ((d.update us addMissing).2.update us addMissing).2.text =
      (d.update us addMissing).2.text := by
  have settled : ∀ s ∈ (d.update us addMissing).2.slots, ∀ u ∈ us,
      s.step addMissing u = s ∧ u.change? addMissing s.site = none := by
    rw [(update_eq addMissing us d).2]
    intro s member
    obtain ⟨t, inside, rfl⟩ := List.mem_map.mp member
    refine settled_of_unmet (unmet (t.pin, _) ?_)
    rw [zip_pins]
    exact List.mem_map_of_mem inside
  have stays : ((d.update us addMissing).2.update us addMissing).2 = (d.update us addMissing).2 :=
    update_eq_self fun s member => foldl_step_eq_self fun u inside => (settled s member u inside).1
  have nothing : ((d.update us addMissing).2.update us addMissing).1.changes = [] := by
    rw [(update_eq addMissing us _).1]
    exact records_eq_nil settled
  exact ⟨nothing, by rw [changed_update, nothing]; rfl, stays, by rw [stays]⟩

/-- A version for `terraform` and one for the provider with the name `aws`. -/
def oneEach : List Upgrade :=
  [{ kind := .terraform, key := none, target := "1.2" },
    { kind := .provider, key := some "aws", target := "5.0", keepVersions := ["5.0"] }]

theorem update_again_oneEach :
    ∃ d, read? commentedSource = some d ∧ d.Unmet oneEach true ∧
      ((d.update oneEach true).2.update oneEach true).1.changes = [] ∧
      ((d.update oneEach true).2.update oneEach true).1.changed = false ∧
      ((d.update oneEach true).2.update oneEach true).2 = (d.update oneEach true).2 ∧
      ((d.update oneEach true).2.update oneEach true).2.text = (d.update oneEach true).2.text := by
  have evaluated : (read? commentedSource).map (fun d => decide (d.Unmet oneEach true)) =
      some true := by
    decide +kernel
  obtain ⟨d, read, unmet⟩ := Option.map_eq_some_iff.mp evaluated
  exact ⟨d, read, of_decide_eq_true unmet, update_again (of_decide_eq_true unmet)⟩

/-- The version `"5.0"` for the provider with the name `aws`, and then the version `"6.0"` for
providers from the source `var.x`. -/
def nameThenSource : List Upgrade :=
  [{ kind := .provider, key := some "aws", target := "5.0" },
    { kind := .provider, key := some "var.x", target := "6.0" }]

/-- A version that is added behind `var.x /* c */` lets a second upgrade meet the first, which was
alone at the pin before. Then the update once more changes the version to that of the first and back
to that of the second. -/
theorem update_again_changes_commentedSource :
    ∃ d, read? commentedSource = some d ∧
      (∀ p ∈ d.pins, ∀ u ∈ nameThenSource, ∀ v ∈ nameThenSource,
        u.addresses p = true → v.addresses p = true → u = v) ∧
      ((d.update nameThenSource true).2.update nameThenSource true).1.changed = true := by
  have evaluated : (read? commentedSource).map (fun d =>
      decide ((∀ p ∈ d.pins, ∀ u ∈ nameThenSource, ∀ v ∈ nameThenSource,
        u.addresses p = true → v.addresses p = true → u = v) ∧
      ((d.update nameThenSource true).2.update nameThenSource true).1.changed = true)) =
      some true := by
    decide +kernel
  obtain ⟨d, read, both⟩ := Option.map_eq_some_iff.mp evaluated
  exact ⟨d, read, of_decide_eq_true both⟩

/-- What upgrades leave that do not look at the versions that are there.

* The slots are those of before, in the same order, each with what the upgrades leave there.
* A slot whose pin has a version or may get one holds that of the last upgrade that addresses the
  pin and is kept off neither by its name nor by a local source, and the slot is what it was if
  there is no such upgrade or the pin can get no version. This is so where the same upgrades address
  the pin before and after the update.
* If this is so at every slot, the same upgrades once more leave the document and its text as they
  are. -/
theorem update_lastWriter (d : Document) (us : List Upgrade) (addMissing : Bool)
    (blind : ∀ u ∈ us, u.Blind) :
    ((d.update us addMissing).2.slots = d.slots.map (us.foldl (Slot.step addMissing)) ∧
      d.pins = d.slots.map Slot.pin ∧
      (d.update us addMissing).2.pins = (d.update us addMissing).2.slots.map Slot.pin) ∧
    (∀ s ∈ d.slots, (∀ u ∈ us,
        u.addresses (us.foldl (Slot.step addMissing) s).pin = u.addresses s.pin) →
      (∀ u ∈ (us.filter (Wants · s.pin)).getLast?, Open addMissing s.pin →
        us.foldl (Slot.step addMissing) s = s.write u.target ∧
          (us.foldl (Slot.step addMissing) s).pin.version = some u.target) ∧
      ((∀ u ∈ us, ¬ u.Wants s.pin) ∨ ¬ Open addMissing s.pin →
        us.foldl (Slot.step addMissing) s = s)) ∧
    ((∀ s ∈ d.slots, ∀ u ∈ us,
        u.addresses (us.foldl (Slot.step addMissing) s).pin = u.addresses s.pin) →
      ((d.update us addMissing).2.update us addMissing).2 = (d.update us addMissing).2 ∧
      ((d.update us addMissing).2.update us addMissing).2.text =
      (d.update us addMissing).2.text) := by
  have slots := (update_eq addMissing us d).2
  refine ⟨⟨slots, d.pins_eq, pins_eq _⟩, fun s member agree => ⟨fun u last opened => ?_, ?_⟩,
    fun agree => ?_⟩
  · have target : lastTarget? us s.pin = some u.target := by
      rw [lastTarget?, last]
      rfl
    have ended := foldl_step_of_agree blind agree
    rw [if_pos opened, target, Slot.put_some] at ended
    exact ⟨ended, by rw [ended, Slot.pin_write]⟩
  · have ended := foldl_step_of_agree blind agree
    rintro (unwanted | closed)
    · rwa [lastTarget?_eq_none unwanted, ite_self, Slot.put_none] at ended
    · rwa [if_neg closed, Slot.put_none] at ended
  · have stays : ((d.update us addMissing).2.update us addMissing).2 =
        (d.update us addMissing).2 := by
      refine update_eq_self fun s member => ?_
      rw [slots] at member
      obtain ⟨t, inside, rfl⟩ := List.mem_map.mp member
      exact foldl_step_again blind (agree t inside)
    exact ⟨stays, by rw [stays]⟩

/-- A version for all providers, and then another one for the provider with the name `aws`. -/
def allThenOne : List Upgrade :=
  [{ kind := .provider, key := none, target := "5.0" },
    { kind := .provider, key := some "aws", target := "6.0" }]

theorem update_lastWriter_allThenOne :
    ∃ d, read? commentedSource = some d ∧ (∀ u ∈ allThenOne, u.Blind) ∧
      (∀ s ∈ d.slots, ∀ u ∈ allThenOne,
        u.addresses (allThenOne.foldl (Slot.step true) s).pin = u.addresses s.pin) ∧
      (∀ s ∈ d.slots, ∀ u ∈ (allThenOne.filter (Wants · s.pin)).getLast?, Open true s.pin →
        allThenOne.foldl (Slot.step true) s = s.write u.target) ∧
      ((d.update allThenOne true).2.update allThenOne true).2.text =
        (d.update allThenOne true).2.text := by
  have evaluated : (read? commentedSource).map (fun d =>
      decide (∀ s ∈ d.slots, ∀ u ∈ allThenOne,
        u.addresses (allThenOne.foldl (Slot.step true) s).pin = u.addresses s.pin)) =
          some true := by
    decide +kernel
  obtain ⟨d, read, decided⟩ := Option.map_eq_some_iff.mp evaluated
  have agree := of_decide_eq_true decided
  have blind : ∀ u ∈ allThenOne, u.Blind := by decide
  obtain ⟨-, written, again⟩ := update_lastWriter d allThenOne true blind
  exact ⟨d, read, blind, agree,
    fun s member u last opened => ((written s member (agree s member)).1 u last opened).1,
    (again agree).2⟩

/-- The version `"7.0"` for providers from the source `var.x`, and then the version `"6.0"` for
those from `var.x` with a comment. -/
def twoSources : List Upgrade :=
  [{ kind := .provider, key := some "var.x", target := "7.0" },
    { kind := .provider, key := some "var.x /* c */", target := "6.0" }]

/-- A version that is added behind `var.x /* c */` lets a later upgrade win that did not address the
pin before, and lets other upgrades win when the same are applied once more. -/
theorem update_lastWriter_commentedSource :
    ∃ d, read? commentedSource = some d ∧
      (∃ p ∈ d.pins, p.name = "aws" ∧
        (nameThenSource.filter (Wants · p)).getLast?.map Upgrade.target = some "5.0") ∧
      (∃ p ∈ (d.update nameThenSource true).2.pins, p.name = "aws" ∧ p.version = some "6.0") ∧
      ((d.update twoSources true).2.update twoSources true).2.text ≠
        (d.update twoSources true).2.text := by
  have evaluated : (read? commentedSource).map (fun d =>
      decide ((∃ p ∈ d.pins, p.name = "aws" ∧
        (nameThenSource.filter (Wants · p)).getLast?.map Upgrade.target = some "5.0") ∧
      (∃ p ∈ (d.update nameThenSource true).2.pins, p.name = "aws" ∧ p.version = some "6.0") ∧
      ((d.update twoSources true).2.update twoSources true).2.text ≠
        (d.update twoSources true).2.text)) = some true := by
    decide +kernel
  obtain ⟨d, read, all⟩ := Option.map_eq_some_iff.mp evaluated
  exact ⟨d, read, of_decide_eq_true all⟩

end Document

end TerraformPins
