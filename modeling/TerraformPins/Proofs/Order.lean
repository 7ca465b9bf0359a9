import Mathlib.Data.List.FinRange
import Mathlib.Logic.Equiv.Fin.Basic
import TerraformPins.Proofs.Batch
import TerraformPins.Proofs.Provenance

/-!
# Upgrades in another order

Two upgrades that never address the same pin can be applied in either order. So the upgrades can be
reordered as long as those that meet at a pin keep their order: at each slot the upgrades that
address it are then the same, in the same order, and the others do nothing there. Upgrades of
different kinds never meet, and so it does not matter in which order the sections of a batch are
applied.

Which upgrades address a slot can change when a version is added, so upgrades meet at a pin as it is
before or after the update.

## Main definitions

* `Reorders` — a list in another order in which members that meet keep their order
* `Slot.Passes` — the states that a slot can pass under upgrades
* `Document.Meet` — two upgrades that address a pin before or after an update
* `Document.Agree` — two lists of upgrades that do the same to a document

## Main results

* `filter_eq_of_reorders` — members that all meet keep their order
* `Slot.run_filter` — upgrades that never address a slot can be left out
* `Document.update_reorders` — upgrades in another order
-/

namespace TerraformPins

open Hcl

/-- A list in another order in which any two members that meet keep their order. -/
def Reorders {α : Type} (meet : α → α → Prop) (us vs : List α) : Prop :=
  ∃ σ : Fin us.length ≃ Fin vs.length, (∀ i, vs.get (σ i) = us.get i) ∧
    ∀ i j, i < j → meet (us.get i) (us.get j) → σ i < σ j

section Lists

variable {α : Type} {meet : α → α → Prop} {us vs : List α}

theorem Reorders.mono {meet' : α → α → Prop} (h : Reorders meet us vs)
    (fewer : ∀ u v, meet' u v → meet u v) : Reorders meet' us vs := by
  obtain ⟨σ, same, ordered⟩ := h
  exact ⟨σ, same, fun i j before both => ordered i j before (fewer _ _ both)⟩

theorem Reorders.mem_iff (h : Reorders meet us vs) {u : α} : u ∈ vs ↔ u ∈ us := by
  obtain ⟨σ, same, -⟩ := h
  rw [List.mem_iff_get, List.mem_iff_get]
  constructor
  · rintro ⟨j, rfl⟩
    exact ⟨σ.symm j, by rw [← same, σ.apply_symm_apply]⟩
  · rintro ⟨i, rfl⟩
    exact ⟨σ i, same i⟩

/-- Two members that do not meet can change places. -/
theorem reorders_swap {u v : α} (apart : ¬ meet u v) :
    Reorders meet (u :: v :: us) (v :: u :: us) := by
  let σ : Fin (us.length + 2) ≃ Fin (us.length + 2) := Equiv.swap 0 1
  have first : σ 0 = 1 := Equiv.swap_apply_left _ _
  have second : σ 1 = 0 := Equiv.swap_apply_right _ _
  have later (i : Nat) (bound : i + 2 < us.length + 2) : σ ⟨i + 2, bound⟩ = ⟨i + 2, bound⟩ :=
    Equiv.swap_apply_of_ne_of_ne (by simp [Fin.ext_iff]) (by simp [Fin.ext_iff])
  refine ⟨σ, ?_, ?_⟩
  · rintro ⟨_ | _ | i, bound⟩
    · exact congrArg (v :: u :: us).get first
    · exact congrArg (v :: u :: us).get second
    · exact congrArg (v :: u :: us).get (later i bound)
  · -- Only the first two positions are exchanged, and their members do not meet.
    intro i j before meets
    have value : ∀ k : Fin (us.length + 2), (σ k).val = if k.val = 0 then 1 else
        if k.val = 1 then 0 else k.val := by
      rintro ⟨_ | _ | k, bound⟩
      · exact congrArg Fin.val first
      · exact congrArg Fin.val second
      · exact congrArg Fin.val (later k bound)
    have separate : ¬ (i.val = 0 ∧ j.val = 1) := by
      rintro ⟨front, behind⟩
      obtain rfl : i = ⟨0, by simp⟩ := Fin.ext front
      obtain rfl : j = ⟨1, by simp⟩ := Fin.ext behind
      exact apart meets
    rw [Fin.lt_def] at before ⊢
    rw [value, value]
    split_ifs <;> omega

/-- The members of a list that are picked out stand at the positions that are picked out. -/
theorem filter_eq_map_finRange (p : α → Bool) (xs : List α) :
    xs.filter p = ((List.finRange xs.length).filter (p ∘ xs.get)).map xs.get := by
  conv_lhs => rw [← List.map_get_finRange xs, List.filter_map]

/-- Members that all meet keep their order. -/
theorem filter_eq_of_reorders (h : Reorders meet us vs) {p : α → Bool}
    (all : ∀ u v, p u = true → p v = true → meet u v) : us.filter p = vs.filter p := by
  obtain ⟨σ, same, ordered⟩ := h
  let old := (List.finRange us.length).filter (p ∘ us.get)
  let new := (List.finRange vs.length).filter (p ∘ vs.get)
  have newSorted : new.Pairwise (· < ·) := (List.pairwise_lt_finRange _).filter _
  -- The old positions, moved to where their members stand now, are the new ones and are sorted.
  have movedSorted : (old.map σ).Pairwise (· < ·) := by
    have oldSorted : old.Pairwise (· < ·) := (List.pairwise_lt_finRange _).filter _
    refine List.pairwise_map.mpr (oldSorted.imp_of_mem fun first second before => ?_)
    exact ordered _ _ before
      (all _ _ (List.mem_filter.mp first).2 (List.mem_filter.mp second).2)
  have movedPerm : (old.map σ).Perm new := by
    refine (List.perm_ext_iff_of_nodup movedSorted.nodup newSorted.nodup).mpr fun j => ?_
    have there : vs.get j = us.get (σ.symm j) := by rw [← same, σ.apply_symm_apply]
    simp only [old, new, List.mem_map, List.mem_filter, List.mem_finRange, true_and,
      Function.comp_apply, there]
    exact ⟨fun ⟨i, picked, moved⟩ => by rwa [← moved, σ.symm_apply_apply],
      fun picked => ⟨σ.symm j, picked, σ.apply_symm_apply j⟩⟩
  have moved : old.map σ = new :=
    movedPerm.eq_of_pairwise (fun i j _ _ before behind => absurd before (lt_asymm behind))
      movedSorted newSorted
  calc us.filter p
    _ = old.map us.get := filter_eq_map_finRange p us
    _ = (old.map σ).map vs.get := by
      rw [List.map_map]
      exact List.map_congr_left fun i _ => (same i).symm
    _ = vs.filter p := by rw [moved, filter_eq_map_finRange p vs]

/-- If of several lists at most one has members that are picked out, their order does not matter. -/
theorem filter_flatten_of_perm {p : α → Bool} {lists : List (List α)} {xs : List α}
    {others : List (List α)} (perm : lists.Perm (xs :: others))
    (only : ∀ ys ∈ others, ys.filter p = []) : lists.flatten.filter p = xs.filter p := by
  have empty : (others.map (List.filter p)).filter (!·.isEmpty) = [] := by
    rw [List.filter_eq_nil_iff]
    intro zs member
    obtain ⟨ys, inside, rfl⟩ := List.mem_map.mp member
    simp [only ys inside]
  -- Of the lists that are left after the filter, at most one is not empty, wherever it stands.
  have picked := (perm.map (List.filter p)).filter (!·.isEmpty)
  rw [List.filter_flatten, ← List.flatten_filter_not_isEmpty]
  rw [List.map_cons, List.filter_cons, empty] at picked
  split at picked
  · rw [List.perm_singleton.mp picked, List.flatten_singleton]
  · rw [List.perm_nil.mp picked]
    simp_all

end Lists

/-- The sections of a batch in another order have the same upgrades of each kind, in the same
order. -/
theorem filter_kind_of_sections {ms ps ts : List Upgrade} {sections : List (List Upgrade)}
    (modules : ∀ u ∈ ms, u.kind = .module) (providers : ∀ u ∈ ps, u.kind = .provider)
    (terraform : ∀ u ∈ ts, u.kind = .terraform) (perm : sections.Perm [ms, ps, ts])
    (kind : PinKind) :
    sections.flatten.filter (·.kind == kind) = (ms ++ ps ++ ts).filter (·.kind == kind) := by
  -- One section has the upgrades of this kind, and the two others have none.
  have rest : ∃ xs others, [ms, ps, ts].Perm (xs :: others) ∧
      ∀ ys ∈ others, ys.filter (·.kind == kind) = [] := by
    cases kind with
    | module => exact ⟨ms, [ps, ts], .refl _, by simp +contextual [providers, terraform]⟩
    | provider => exact ⟨ps, [ms, ts], .swap _ _ _, by simp +contextual [modules, terraform]⟩
    | terraform =>
      exact ⟨ts, [ms, ps], List.perm_append_singleton ts [ms, ps],
        by simp +contextual [modules, providers]⟩
  obtain ⟨xs, others, front, only⟩ := rest
  have joined : ms ++ ps ++ ts = [ms, ps, ts].flatten := by simp
  rw [joined, filter_flatten_of_perm front only, filter_flatten_of_perm (perm.trans front) only]

namespace Slot

variable (addMissing : Bool)

/-- What upgrades do at a slot: the version that they leave, if they write one, and what they
record. -/
def run (us : List Upgrade) (s : Slot) : Option String × List Change × List Refusal :=
  (s.written addMissing us, slotChanges addMissing us [s], slotRefusals addMissing us [s])

/-- The states that a slot can pass under upgrades, in whatever order: nothing was written, or one
of them admits the pin and a version was written. -/
def Passes (us : List Upgrade) (s t : Slot) : Prop :=
  t = s ∨ (∃ u ∈ us, u.Admits addMissing s.pin) ∧ ∃ version, t = s.write version

variable {addMissing} {us vs : List Upgrade} {u : Upgrade} {s t : Slot}

theorem Passes.step (passes : s.Passes addMissing us t) (member : u ∈ us) :
    s.Passes addMissing us (t.step addMissing u) := by
  unfold Slot.step
  split
  case isFalse => exact passes
  case isTrue admits =>
    rcases passes with rfl | ⟨admitted, version, rfl⟩
    · exact .inr ⟨⟨u, member, admits⟩, u.target, rfl⟩
    · exact .inr ⟨admitted, u.target, rfl⟩

/-- An upgrade that addresses a slot on its way addresses it before or after all of them. -/
theorem Passes.addresses (passes : s.Passes addMissing us t)
    (addressed : u.addresses t.pin = true) :
    u.addresses s.pin = true ∨ u.addresses (us.foldl (Slot.step addMissing) s).pin = true := by
  rcases passes with rfl | ⟨⟨v, member, admits⟩, version, rfl⟩
  · exact .inl addressed
  · -- Once a version was written, the slot differs from the last state in its version only.
    obtain ⟨last, ended⟩ := foldl_step_of_admitted member admits
    rw [ended, addresses_write last version]
    exact .inr addressed

/-- An upgrade that does not address a slot does nothing there. -/
theorem run_cons_of_not_addresses (idle : u.addresses s.pin = false) :
    s.run addMissing (u :: us) = s.run addMissing us := by
  have unaddressed : ¬ u.addresses s.site.pin = true := by
    rw [show s.site.pin = s.pin from rfl, idle]
    exact Bool.false_ne_true
  have refuses : ¬ u.Admits addMissing s.site.pin := fun admits => unaddressed admits.1
  have stays : s.step addMissing u = s := if_neg refuses
  have choice : u.choice addMissing s.site = none := if_neg fun both => refuses both.1
  have change : u.change? addMissing s.site = none := if_neg fun both => refuses both.1
  have refusal : u.refusal? addMissing s.site = none := if_neg fun both => unaddressed both.1
  simp only [run, written, slotChanges, slotRefusals, records_singleton_cons, stays, choice, change,
    refusal, Option.or_none, Option.toList_none, List.nil_append]

theorem run_cons_congr
    (later : (s.step addMissing u).run addMissing us = (s.step addMissing u).run addMissing vs) :
    s.run addMissing (u :: us) = s.run addMissing (u :: vs) := by
  simp only [run, Prod.mk.injEq] at later
  simp only [run, written, slotChanges, slotRefusals, records_singleton_cons, later]

/-- Upgrades that never address a slot can be left out. -/
theorem run_filter {p : Upgrade → Bool} (inside : ∀ v ∈ vs, v ∈ us)
    (passes : s.Passes addMissing us t)
    (idle : ∀ v ∈ us, p v = false → ∀ r, s.Passes addMissing us r → v.addresses r.pin = false) :
    t.run addMissing vs = t.run addMissing (vs.filter p) := by
  -- The induction is over the upgrades that are still to come at the state `t`.
  induction vs generalizing t with
  | nil => rfl
  | cons v vs ih =>
    have member := inside v List.mem_cons_self
    have rest : ∀ w ∈ vs, w ∈ us := fun w behind => inside w (List.mem_cons_of_mem v behind)
    cases picked : p v with
    | true =>
      rw [List.filter_cons_of_pos picked]
      exact run_cons_congr (ih rest (passes.step member))
    | false =>
      rw [List.filter_cons_of_neg (by simp [picked]),
        run_cons_of_not_addresses (idle v member picked t passes)]
      exact ih rest passes

/-- The upgrades can be put in another order in which those that address a slot keep theirs. -/
theorem run_eq_of_reorders
    (h : Reorders (fun u v =>
      (u.addresses s.pin = true ∨ u.addresses (us.foldl (Slot.step addMissing) s).pin = true) ∧
      (v.addresses s.pin = true ∨ v.addresses (us.foldl (Slot.step addMissing) s).pin = true))
      us vs) :
    s.run addMissing us = s.run addMissing vs := by
  let p (u : Upgrade) : Bool :=
    u.addresses s.pin || u.addresses (us.foldl (Slot.step addMissing) s).pin
  have picks : ∀ u, p u = true ↔
      u.addresses s.pin = true ∨ u.addresses (us.foldl (Slot.step addMissing) s).pin = true :=
    fun u => Bool.or_eq_true_iff
  -- What addresses the slot neither before nor after the update does not address it on the way.
  have idle : ∀ v ∈ us, p v = false → ∀ t, s.Passes addMissing us t →
      v.addresses t.pin = false := by
    intro v _ left t passes
    by_contra addressed
    have picked := (picks v).mpr (passes.addresses (by simpa using addressed))
    rw [left] at picked
    cases picked
  calc s.run addMissing us
    _ = s.run addMissing (us.filter p) := run_filter (fun _ => id) (.inl rfl) idle
    _ = s.run addMissing (vs.filter p) := by
      rw [filter_eq_of_reorders h fun u v first second => ⟨(picks u).mp first, (picks v).mp second⟩]
    _ = s.run addMissing vs :=
      (run_filter (fun v member => h.mem_iff.mp member) (.inl rfl) idle).symm

/-- Upgrades of other kinds than that of the pin never address it. -/
theorem run_eq_of_kinds
    (h : us.filter (·.kind == s.kind) = vs.filter (·.kind == s.kind)) :
    s.run addMissing us = s.run addMissing vs := by
  have idle (ws : List Upgrade) : ∀ v ∈ ws, (v.kind == s.kind) = false →
      ∀ t, s.Passes addMissing ws t → v.addresses t.pin = false := by
    intro v _ other t passes
    have kind : t.pin.kind = s.kind := by
      rcases passes with rfl | ⟨-, version, rfl⟩ <;> rfl
    rw [Upgrade.addresses, kind, show (s.kind == v.kind) = false by rw [← other]; exact BEq.comm,
      Bool.false_and]
  rw [run_filter (fun _ => id) (.inl rfl) (idle us), h]
  exact (run_filter (fun _ => id) (.inl rfl) (idle vs)).symm

end Slot

namespace Document

/-- Two upgrades that both address a pin as it is before or after an update. -/
def Meet (d : Document) (us : List Upgrade) (addMissing : Bool) (u v : Upgrade) : Prop :=
  ∃ x ∈ d.pins.zip (d.update us addMissing).2.pins,
    (u.addresses x.1 = true ∨ u.addresses x.2 = true) ∧
    (v.addresses x.1 = true ∨ v.addresses x.2 = true)

/-- Two upgrades that both address a pin. -/
def MeetAt (d : Document) (u v : Upgrade) : Prop :=
  ∃ p ∈ d.pins, u.addresses p = true ∧ v.addresses p = true

instance (d : Document) (us : List Upgrade) (addMissing : Bool) (u v : Upgrade) :
    Decidable (d.Meet us addMissing u v) :=
  inferInstanceAs (Decidable (∃ x ∈ _, _))

instance (d : Document) (u v : Upgrade) : Decidable (d.MeetAt u v) :=
  inferInstanceAs (Decidable (∃ p ∈ _, _))

/-- Two lists of upgrades that do the same to a document: they leave the same document with the same
text, and record the same at each slot. -/
structure Agree (d : Document) (us vs : List Upgrade) (addMissing : Bool) : Prop where
  document : (d.update us addMissing).2 = (d.update vs addMissing).2
  text : (d.update us addMissing).2.text = (d.update vs addMissing).2.text
  changes : ∀ i, recordsOf i (d.numberedChanges us addMissing) =
    recordsOf i (d.numberedChanges vs addMissing)
  refusals : ∀ i, recordsOf i (d.numberedRefusals us addMissing) =
    recordsOf i (d.numberedRefusals vs addMissing)

variable {d : Document} {us vs : List Upgrade} {addMissing : Bool}

/-- Upgrades that do the same at every slot do the same to a document. -/
theorem agree_of_runs (same : ∀ s ∈ d.slots, s.run addMissing us = s.run addMissing vs) :
    d.Agree us vs addMissing := by
  -- The last version at each slot decides what the document becomes.
  have document : (d.update us addMissing).2 = (d.update vs addMissing).2 := by
    rw [update_eq_write, update_eq_write]
    refine write_congr fun i bound => ?_
    have run := same d.slots[i] (List.getElem_mem bound)
    simpa [writes, bound, Slot.run] using congrArg Prod.fst run
  refine ⟨document, by rw [document], fun i => ?_, fun i => ?_⟩
  · rw [recordsOf_numbered, recordsOf_numbered]
    cases found : d.slots[i]? with
    | none => simp
    | some s =>
      exact congrArg (·.2.1) (same s (List.mem_of_getElem? found))
  · rw [recordsOf_numbered, recordsOf_numbered]
    cases found : d.slots[i]? with
    | none => simp
    | some s =>
      exact congrArg (·.2.2) (same s (List.mem_of_getElem? found))

/-- Upgrades in another order.

* If any two upgrades that address a pin as it is before or after the update keep their order, they
  do the same to the document.
* If the update changes nothing but versions, the pins as they are before it say which upgrades
  these are.
* Upgrades of different kinds can be put in any order.
* So the sections of a batch can be applied in any order. -/
theorem update_reorders (d : Document) (us vs : List Upgrade) (addMissing : Bool) :
    (Reorders (d.Meet us addMissing) us vs → d.Agree us vs addMissing) ∧
    (d.UpdatesAlone us addMissing → Reorders d.MeetAt us vs → d.Agree us vs addMissing) ∧
    ((∀ kind, us.filter (·.kind == kind) = vs.filter (·.kind == kind)) →
      d.Agree us vs addMissing) ∧
    ∀ (draft : BatchDraft) (b : Batch), draft.check = .ok b →
      ∃ ms ps ts, (DraftEntry.checkAll .modules draft.modules = .ok ms ∧
          DraftEntry.checkAll .providers draft.providers = .ok ps ∧
          DraftEntry.checkAll .terraform draft.terraform = .ok ts) ∧
        b.upgrades = ms ++ ps ++ ts ∧
        ∀ sections : List (List Upgrade), sections.Perm [ms, ps, ts] →
          d.Agree b.upgrades sections.flatten addMissing := by
  have reordered : Reorders (d.Meet us addMissing) us vs → d.Agree us vs addMissing := by
    intro reorders
    refine agree_of_runs fun s member => Slot.run_eq_of_reorders (reorders.mono fun u v both => ?_)
    refine ⟨(s.pin, (us.foldl (Slot.step addMissing) s).pin), ?_, both⟩
    rw [zip_pins]
    exact List.mem_map_of_mem member
  have sorted (xs ys : List Upgrade)
      (same : ∀ kind, xs.filter (·.kind == kind) = ys.filter (·.kind == kind)) :
      d.Agree xs ys addMissing :=
    agree_of_runs fun s _ => Slot.run_eq_of_kinds (same s.kind)
  refine ⟨reordered, fun alone reorders => reordered (reorders.mono fun u v meet => ?_),
    sorted us vs, fun draft b checked => ?_⟩
  · -- If only the version changes, a pin is addressed before the update exactly if it is after it.
    obtain ⟨x, member, first, second⟩ := meet
    rw [zip_pins] at member
    obtain ⟨s, inside, rfl⟩ := List.mem_map.mp member
    have here := (updatesAlone_iff d us addMissing).mp alone s inside
    rw [addresses_of_alone here, or_self] at first second
    exact ⟨s.pin, d.pins_eq ▸ List.mem_map_of_mem inside, first, second⟩
  · obtain ⟨ms, ps, ts, modules, providers, terraform, joined⟩ :=
      BatchDraft.upgrades_of_check checked
    refine ⟨ms, ps, ts, ⟨modules, providers, terraform⟩, joined, fun sections perm => ?_⟩
    rw [joined]
    exact sorted _ _ fun kind => (filter_kind_of_sections (DraftEntry.kind_of_checkAll modules)
      (DraftEntry.kind_of_checkAll providers)
        (DraftEntry.kind_of_checkAll terraform) perm kind).symm

/-- Two modules with different sources. -/
def twoModules : String :=
  "module \"a\" \x7b\n  source = \"s\"\n  version = \"1\"\n\x7d\n" ++
    "module \"b\" \x7b\n  source = \"t\"\n  version = \"1\"\n\x7d\n"

/-- A version for the modules with a source. -/
def versionForSource (source version : String) : Upgrade :=
  { kind := .module, key := some source, target := version }

/-- The versions `"2"` and `"3"` for the two modules, and then the version `"4"` for modules that
have the version `"2"`. -/
def eachThenAll : List Upgrade :=
  [versionForSource "s" "2", versionForSource "t" "3",
    { kind := .module, key := none, target := "4", onlyFrom := ["2"] }]

/-- The same with the versions for the two modules in the other order. -/
def otherThenAll : List Upgrade :=
  [versionForSource "t" "3", versionForSource "s" "2",
    { kind := .module, key := none, target := "4", onlyFrom := ["2"] }]

/-- A batch with a version for one of the modules and one for `terraform`. -/
def moduleAndTerraform : BatchDraft :=
  { modules := [{ key := some "s", version := some "2" }],
    terraform := [{ version := some "1.2" }] }

theorem update_reorders_twoModules :
    ∃ d b, (read? twoModules = some d ∧
        Reorders (d.Meet eachThenAll false) eachThenAll otherThenAll ∧
        d.UpdatesAlone eachThenAll false ∧ Reorders d.MeetAt eachThenAll otherThenAll ∧
        moduleAndTerraform.check = .ok b) ∧
      d.Agree eachThenAll otherThenAll false ∧
      ∃ ms ps ts, (DraftEntry.checkAll .modules moduleAndTerraform.modules = .ok ms ∧
          DraftEntry.checkAll .providers moduleAndTerraform.providers = .ok ps ∧
          DraftEntry.checkAll .terraform moduleAndTerraform.terraform = .ok ts) ∧
        b.upgrades = ms ++ ps ++ ts ∧
        ∀ sections : List (List Upgrade), sections.Perm [ms, ps, ts] →
          d.Agree b.upgrades sections.flatten false := by
  have evaluated : (read? twoModules).map (fun d =>
      decide ((¬ d.Meet eachThenAll false eachThenAll[0] eachThenAll[1]) ∧
        (¬ d.MeetAt eachThenAll[0] eachThenAll[1]) ∧ ∀ s ∈ d.slots, s.Steady)) = some true := by
    decide +kernel
  obtain ⟨d, read, all⟩ := Option.map_eq_some_iff.mp evaluated
  obtain ⟨unmet, apart, steady⟩ := of_decide_eq_true all
  have alone : d.UpdatesAlone eachThenAll false :=
    (updatesAlone_iff _ _ _).mpr fun s member => .inl (steady s member)
  have reordered : Reorders (d.Meet eachThenAll false) eachThenAll otherThenAll :=
    reorders_swap unmet
  obtain ⟨agree, -, -, sections⟩ := d.update_reorders eachThenAll otherThenAll false
  have checked : moduleAndTerraform.check = .ok
      ⟨none, false,
        [versionForSource "s" "2", { kind := .terraform, key := none, target := "1.2" }]⟩ := by
    decide +kernel
  exact ⟨d, _, ⟨read, reordered, alone, reorders_swap apart, checked⟩, agree reordered,
    sections _ _ checked⟩

/-- A version that is added behind `var.x /* c */` lets a second upgrade meet the first, but only if
it comes later. So the two do not commute, although only one of them addresses a pin of the
document. -/
theorem update_reorders_commentedSource :
    ∃ d, read? commentedSource = some d ∧
      Reorders d.MeetAt nameThenSource nameThenSource.reverse ∧
      (d.update nameThenSource true).2.text ≠ (d.update nameThenSource.reverse true).2.text := by
  have evaluated : (read? commentedSource).map (fun d =>
      decide (¬ d.MeetAt nameThenSource[0] nameThenSource[1] ∧
        (d.update nameThenSource true).2.text ≠ (d.update nameThenSource.reverse true).2.text)) =
      some true := by
    decide +kernel
  obtain ⟨d, read, both⟩ := Option.map_eq_some_iff.mp evaluated
  obtain ⟨apart, differ⟩ := of_decide_eq_true both
  exact ⟨d, read, reorders_swap apart, differ⟩

end Document

end TerraformPins
