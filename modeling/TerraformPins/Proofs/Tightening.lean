import Mathlib.Logic.Relation
import TerraformPins.Proofs.AddMissing
import TerraformPins.Proofs.Slot.Print

/-!
# Tighter upgrades

An upgrade is tightened by more versions or names to keep, by wider patterns for these names, and by
fewer versions to start from. The last kind has a gap: without any version to start from an upgrade
starts from all of them, so the list may be made shorter but not empty, and an empty one may be
filled. Whatever is tightened, the reasons to leave a pin alone only become more. Which of them is
given can change, but a pin that the tighter upgrade admits was admitted before.

Seen from a document the tighter upgrade changes some of the pins that the other one changes, each
in the same way, and the others stay and are printed as they were.

## Main definitions

* `Upgrade.Tightens` — one change of an upgrade that tightens it
* `Upgrade.Narrows` — an upgrade that keeps at least as much and allows at most as much
* `Document.changedBy` — the numbers of the pins that an upgrade changes

## Main results

* `narrows_of_tightens` — tightening makes an upgrade narrower
* `Document.update_tightened` — a tighter upgrade changes no other pins, and none differently
-/

namespace TerraformPins

open Hcl

namespace Upgrade

/-- One change of an upgrade that tightens it. -/
inductive Tightens : Upgrade → Upgrade → Prop where
  /-- More versions are kept. -/
  | keepVersions {u : Upgrade} {versions : List String} (more : u.keepVersions ⊆ versions) :
      Tightens u { u with keepVersions := versions }
  /-- More patterns say which names are kept. -/
  | keepNames {u : Upgrade} {patterns : List String} (more : u.keepNames ⊆ patterns) :
      Tightens u { u with keepNames := patterns }
  /-- A star is put anywhere into one of these patterns. -/
  | star {u : Upgrade} {before after : List String} {front back : List Char}
      (pattern : u.keepNames = before ++ String.ofList (front ++ back) :: after) :
      Tightens u { u with keepNames := before ++ String.ofList (front ++ '*' :: back) :: after }
  /-- The upgrade starts from fewer versions, though not from none. -/
  | fewerFrom {u : Upgrade} {versions : List String} (fewer : versions ⊆ u.onlyFrom)
      (some : versions ≠ []) : Tightens u { u with onlyFrom := versions }
  /-- The upgrade starts from some versions and not from all. -/
  | onlyFrom {u : Upgrade} {versions : List String} (all : u.onlyFrom = []) (some : versions ≠ []) :
      Tightens u { u with onlyFrom := versions }

/-- An upgrade with the same aim that keeps at least the names and goes on from at most the
versions. -/
structure Narrows (v u : Upgrade) : Prop where
  kind : v.kind = u.kind
  key : v.key = u.key
  target : v.target = u.target
  keeps : ∀ name, u.Keeps name → v.Keeps name
  allows : ∀ addMissing version, v.Allows addMissing version → u.Allows addMissing version

variable {u v w : Upgrade} {addMissing : Bool}

theorem Narrows.refl (u : Upgrade) : u.Narrows u :=
  ⟨rfl, rfl, rfl, fun _ kept => kept, fun _ _ allowed => allowed⟩

theorem Narrows.trans (second : w.Narrows v) (first : v.Narrows u) : w.Narrows u where
  kind := second.kind.trans first.kind
  key := second.key.trans first.key
  target := second.target.trans first.target
  keeps name kept := second.keeps name (first.keeps name kept)
  allows addMissing version allowed :=
    first.allows addMissing version (second.allows addMissing version allowed)

/-- An upgrade that differs in the names that it keeps is narrower if each pattern has one that
describes as much. -/
theorem narrows_of_keepNames {patterns : List String}
    (wider : ∀ pattern ∈ u.keepNames, ∃ other ∈ patterns, ∀ name,
      Wildcard.Describes pattern.toList name → Wildcard.Describes other.toList name) :
    { u with keepNames := patterns }.Narrows u where
  kind := rfl
  key := rfl
  target := rfl
  keeps := by
    rintro name ⟨named, pattern, member, described⟩
    obtain ⟨other, inside, more⟩ := wider pattern member
    exact ⟨named, other, inside, more _ described⟩
  allows _ version allowed := by cases version <;> exact allowed

/-- An upgrade that differs in the versions that it goes on from is narrower if these are fewer. -/
theorem narrows_of_allows {versions others : List String}
    (fewer : ∀ version, version ∉ others ∧ (versions = [] ∨ version ∈ versions) →
      version ∉ u.keepVersions ∧ (u.onlyFrom = [] ∨ version ∈ u.onlyFrom)) :
    { u with onlyFrom := versions, keepVersions := others }.Narrows u where
  kind := rfl
  key := rfl
  target := rfl
  keeps _ kept := kept
  allows _ version allowed := by
    cases version with
    | none => exact allowed
    | some version => exact fewer version allowed

/-- Each change that tightens an upgrade makes it narrower. -/
theorem Tightens.narrows (tightened : u.Tightens v) : v.Narrows u := by
  cases tightened with
  | keepVersions more =>
    exact narrows_of_allows fun _ allowed => ⟨fun kept => allowed.1 (more kept), allowed.2⟩
  | keepNames more => exact narrows_of_keepNames fun pattern member =>
    ⟨pattern, more member, fun _ => id⟩
  | @star before after front back patterns =>
    refine narrows_of_keepNames fun pattern member => ?_
    rw [patterns, List.mem_append, List.mem_cons] at member
    rcases member with first | rfl | last
    · exact ⟨pattern, List.mem_append_left _ first, fun _ => id⟩
    · -- This is the pattern that gets the star.
      refine ⟨_, List.mem_append_right _ List.mem_cons_self, fun name described => ?_⟩
      rw [String.toList_ofList] at described ⊢
      exact described.insert_star front
    · exact ⟨pattern, List.mem_append_right _ (List.mem_cons_of_mem _ last), fun _ => id⟩
  | fewerFrom fewer some =>
    -- The new list is not empty, so a version that is allowed stands in it, and then in the old
    -- one.
    exact narrows_of_allows fun _ allowed =>
      ⟨allowed.1, .inr (fewer (allowed.2.resolve_left some))⟩
  | onlyFrom all some => exact narrows_of_allows fun _ allowed => ⟨allowed.1, .inl all⟩

/-- However often it is tightened, an upgrade only becomes narrower. -/
theorem narrows_of_tightens (tightened : Relation.ReflTransGen Tightens u v) : v.Narrows u := by
  induction tightened with
  | refl => exact .refl u
  | tail _ last ih => exact last.narrows.trans ih

namespace Narrows

variable (narrows : v.Narrows u)
include narrows

/-- A narrower upgrade admits fewer pins. -/
theorem admits {p : Pin} (admitted : v.Admits addMissing p) : u.Admits addMissing p := by
  rw [admits_iff, wants_iff] at admitted ⊢
  obtain ⟨⟨addressed, unkept, notLocal⟩, allowed⟩ := admitted
  have same : u.addresses p = v.addresses p := by
    rw [addresses, addresses, narrows.kind, narrows.key]
  exact ⟨⟨same.trans addressed, fun kept => unkept (narrows.keeps _ kept), notLocal⟩,
    narrows.allows _ _ allowed⟩

/-- What a narrower upgrade changes is changed by the other one as well, and the records are the
same. -/
theorem change? {x : Site} {c : Change} (recorded : v.change? addMissing x = some c) :
    u.change? addMissing x = some c := by
  unfold Upgrade.change? at recorded ⊢
  split at recorded
  case isTrue both =>
    rw [narrows.target] at both recorded
    rw [if_pos ⟨narrows.admits both.1, both.2⟩]
    exact recorded
  case isFalse => cases recorded

end Narrows

end Upgrade

/-- Members that one function keeps are kept by another one that does the same to them. -/
theorem filterMap_sublist {α β : Type} {f g : α → Option β} {xs : List α}
    (same : ∀ x y, f x = some y → g x = some y) : (xs.filterMap f).Sublist (xs.filterMap g) := by
  induction xs with
  | nil => exact .slnil
  | cons x xs ih =>
    cases here : f x with
    | some y =>
      rw [List.filterMap_cons_some here, List.filterMap_cons_some (same x y here)]
      exact ih.cons_cons y
    | none =>
      rw [List.filterMap_cons_none here]
      exact ih.trans ((List.sublist_cons_self x xs).filterMap g)

namespace Document

open Upgrade

/-- The numbers of the pins that an upgrade changes. -/
def changedBy (d : Document) (u : Upgrade) (addMissing : Bool) : List Nat :=
  (d.numberedChanges [u] addMissing).map Prod.fst

variable {d : Document} {u v : Upgrade} {addMissing : Bool} {i : Nat}

theorem mem_changedBy_iff :
    i ∈ d.changedBy u addMissing ↔
      ∃ s c, d.slots[i]? = some s ∧ u.change? addMissing s.site = some c := by
  rw [changedBy, List.mem_map]
  constructor
  · rintro ⟨⟨i, c⟩, recorded, rfl⟩
    obtain ⟨s, found, member⟩ := mem_numbered.mp recorded
    rw [records_singleton_cons, records, List.append_nil, Option.mem_toList] at member
    exact ⟨s, c, found, member⟩
  · rintro ⟨s, c, found, change⟩
    refine ⟨(i, c), mem_numbered.mpr ⟨s, found, ?_⟩, rfl⟩
    rw [records_singleton_cons, records, List.append_nil, Option.mem_toList, change]

/-- An upgrade writes its version at the pins that it changes. -/
theorem writes_of_mem (changed : i ∈ d.changedBy u addMissing) :
    d.writes addMissing [u] i = some u.target := by
  obtain ⟨s, c, found, change⟩ := mem_changedBy_iff.mp changed
  obtain ⟨admits, differs, -⟩ := change?_eq_some_iff.mp change
  rw [writes, found]
  exact if_pos ⟨admits, by simpa [Site.changes] using differs⟩

/-- Nothing is written at the others. -/
theorem writes_of_not_mem (unchanged : i ∉ d.changedBy u addMissing) :
    d.writes addMissing [u] i = none := by
  rw [writes, Option.bind_eq_none_iff]
  intro s found
  rw [mem_changedBy_iff] at unchanged
  have nothing : u.change? addMissing s.site = none :=
    Option.eq_none_iff_forall_ne_some.mpr fun c change => unchanged ⟨s, c, found, change⟩
  rw [Upgrade.change?, ite_eq_right_iff] at nothing
  exact if_neg fun both => Option.some_ne_none _ (nothing both)

/-- A pin is changed exactly if the update does something to its slot. -/
theorem mem_changedBy_iff_ne :
    i ∈ d.changedBy u addMissing ↔ (d.update [u] addMissing).2.slots[i]? ≠ d.slots[i]? := by
  rw [mem_changedBy_iff, (update_eq addMissing [u] d).2, List.getElem?_map]
  cases d.slots[i]? with
  | none => simp
  | some s =>
    have moved : s.step addMissing u ≠ s ↔ ∃ c, u.change? addMissing s.site = some c := by
      rw [Ne, ← change?_eq_none_iff]
      exact Option.ne_none_iff_exists'
    simpa using moved.symm

/-- A narrower upgrade leaves some of the records of the other one, with the same numbers. -/
theorem numberedChanges_sublist (narrows : v.Narrows u) :
    (d.numberedChanges [v] addMissing).Sublist (d.numberedChanges [u] addMissing) := by
  refine List.Sublist.append (filterMap_sublist fun x y recorded => ?_) (.refl _)
  obtain ⟨c, change, rfl⟩ := Option.map_eq_some_iff.mp recorded
  exact Option.map_eq_some_iff.mpr ⟨c, narrows.change? change, rfl⟩

/-- Tightening an upgrade never updates more.

* The records of an update are those of its pins, and the pins with a record are those to whose
  slots the update does something.
* All pins that the tighter upgrade changes are changed by the other one as well, and its records
  are some of the other one's, in the same order.
* A pin that both change is the same pin in the end, with the version of the upgrade, and is printed
  alike.
* A pin that the tighter upgrade does not change stays and is printed as in the beginning. -/
theorem update_tightened (d : Document) (addMissing : Bool) {u v : Upgrade}
    (tightened : Relation.ReflTransGen Tightens u v) :
    (∀ w, (d.update [w] addMissing).1.changes = (d.numberedChanges [w] addMissing).map Prod.snd ∧
      ∀ i, i ∈ d.changedBy w addMissing ↔ (d.update [w] addMissing).2.slots[i]? ≠ d.slots[i]?) ∧
    (d.changedBy v addMissing ⊆ d.changedBy u addMissing ∧
      (d.update [v] addMissing).1.changes.Sublist (d.update [u] addMissing).1.changes) ∧
    (∀ i ∈ d.changedBy v addMissing, ∃ p, (d.update [v] addMissing).2.pins[i]? = some p ∧
      (d.update [u] addMissing).2.pins[i]? = some p ∧ p.version = some u.target ∧
      (d.update [v] addMissing).2.prints[i]? = (d.update [u] addMissing).2.prints[i]?) ∧
    ∀ i, i ∉ d.changedBy v addMissing → (d.update [v] addMissing).2.pins[i]? = d.pins[i]? ∧
      (d.update [v] addMissing).2.prints[i]? = d.prints[i]? := by
  have narrows : v.Narrows u := narrows_of_tightens tightened
  have records : (d.numberedChanges [v] addMissing).Sublist (d.numberedChanges [u] addMissing) :=
    numberedChanges_sublist narrows
  have fewer : d.changedBy v addMissing ⊆ d.changedBy u addMissing := (records.map Prod.fst).subset
  refine ⟨fun w => ⟨(d.map_numberedChanges [w] addMissing).symm, fun i => mem_changedBy_iff_ne⟩,
    ⟨fewer, ?_⟩, fun i changed => ?_, fun i unchanged => ?_⟩
  · rw [← map_numberedChanges, ← map_numberedChanges]
    exact records.map Prod.snd
  · -- Both upgrades write the same version there.
    have tighter := writes_of_mem changed
    have other := writes_of_mem (fewer changed)
    obtain ⟨s, c, found, -⟩ := mem_changedBy_iff.mp changed
    rw [narrows.target] at tighter
    simp only [update_eq_write, pins_eq, slots_write, List.getElem?_map, List.getElem?_mapIdx,
      found, tighter, other, Option.map_some]
    refine ⟨_, rfl, rfl, ?_, prints_congr (tighter.trans other.symm) d⟩
    rw [Slot.put_some, Slot.pin_write]
  · have nothing := writes_of_not_mem unchanged
    rw [update_eq_write]
    refine ⟨?_, prints_write nothing d⟩
    rw [pins_eq, pins_eq, slots_write, List.getElem?_map, List.getElem?_map,
      List.getElem?_mapIdx, nothing]
    cases d.slots[i]? <;> rfl

/-- Three modules with names and versions of their own. -/
def threeModules : String :=
  "module \"vpc\" \x7b\n  version = \"1\"\n\x7d\n" ++
    "module \"vpc-eu\" \x7b\n  version = \"1\"\n\x7d\n" ++
    "module \"db\" \x7b\n  version = \"2\"\n\x7d\n"

/-- The version `"3"` for all modules but those with one name. -/
def exceptOne : Upgrade :=
  { kind := .module, key := none, target := "3", keepNames := ["vpceu"] }

/-- The same with a star in the name, and from the version `"1"` only. -/
def exceptMore : Upgrade :=
  { exceptOne with keepNames := ["vpc*eu"], onlyFrom := ["1"] }

theorem update_tightened_threeModules :
    ∃ d, read? threeModules = some d ∧ Relation.ReflTransGen Tightens exceptOne exceptMore ∧
      d.changedBy exceptOne true = [0, 1, 2] ∧ d.changedBy exceptMore true = [0] ∧
      d.changedBy exceptMore true ⊆ d.changedBy exceptOne true ∧
      (∃ p, (d.update [exceptMore] true).2.pins[0]? = some p ∧
        (d.update [exceptOne] true).2.pins[0]? = some p ∧ p.version = some "3") ∧
      (d.update [exceptMore] true).2.prints[1]? = d.prints[1]? ∧
      (d.update [exceptMore] true).2.prints[2]? = d.prints[2]? := by
  have evaluated : (read? threeModules).map (fun d =>
      (d.changedBy exceptOne true, d.changedBy exceptMore true)) = some ([0, 1, 2], [0]) := by
    decide +kernel
  obtain ⟨d, read, both⟩ := Option.map_eq_some_iff.mp evaluated
  obtain ⟨one, more⟩ := Prod.mk.inj both
  have star : exceptOne.Tightens { exceptOne with keepNames := ["vpc*eu"] } :=
    @Tightens.star exceptOne [] [] ['v', 'p', 'c'] ['e', 'u'] rfl
  have tightened : Relation.ReflTransGen Tightens exceptOne exceptMore :=
    .tail (.single star) (.onlyFrom rfl (by decide))
  obtain ⟨-, ⟨fewer, -⟩, same, others⟩ := update_tightened d true tightened
  obtain ⟨p, tighter, other, version, -⟩ := same 0 (by rw [more]; decide)
  exact ⟨d, read, tightened, one, more, fewer, ⟨p, tighter, other, version⟩,
    (others 1 (by rw [more]; decide)).2, (others 2 (by rw [more]; decide)).2⟩

end Document

end TerraformPins
