import TerraformPins.Proofs.Provenance
import TerraformPins.Proofs.Roundtrip
import TerraformPins.Proofs.Wildcard

/-!
# Pins that are never changed

Some pins are kept: modules from a local source, pins with a name that the upgrades keep, and pins
at a version that an upgrade does not go on from. What is refused at a slot once is refused there as
long as the slot stays what it is, and it stays what it is as long as everything is refused there.
So a slot that all upgrades of a sequence of runs refuse in the beginning is never written, and a
block whose slots are all of this kind stays in its place and is printed as it was.

## Main definitions

* `Document.afterJobs` — a document after runs, one after another
* `Document.Untouched` — a slot for which no run records a change

## Main results

* `Document.afterJobs_slot`, `Document.afterJobs_structure` — slots and blocks that are refused stay
* `Document.change_allowed` — a version is changed only by an upgrade that allows it
* `Document.afterJobs_protects` — what is kept through all runs
-/

namespace TerraformPins

open Hcl Upgrade

namespace Document

/-- A document after runs, one after another. -/
def afterJobs (d : Document) (jobs : List Job) : Document :=
  jobs.foldl (fun d job => (job.updateDocument d).2) d

/-- No run records a change for the slot with the number `i`. -/
def Untouched (d : Document) (jobs : List Job) (i : Nat) : Prop :=
  ∀ earlier job later, jobs = earlier ++ job :: later →
    ∀ c, (i, c) ∉ (d.afterJobs earlier).numberedChanges job.upgrades job.addMissing

theorem afterJobs_cons (d : Document) (job : Job) (jobs : List Job) :
    d.afterJobs (job :: jobs) = (job.updateDocument d).2.afterJobs jobs := rfl

section Refused

variable {d : Document} {us : List Upgrade} {addMissing : Bool} {jobs : List Job} {i : Nat}
  {s : Slot}

/-- A slot where everything is refused stays as it is, and nothing is recorded there. -/
theorem update_slot (found : d.slots[i]? = some s)
    (refused : ∀ u ∈ us, ¬ u.Admits addMissing s.pin) :
    (d.update us addMissing).2.slots[i]? = some s ∧
      ∀ c, (i, c) ∉ d.numberedChanges us addMissing := by
  constructor
  · have stays := foldl_step_eq_self fun u member => step_eq_self_of_refused (refused u member)
    rw [(update_eq addMissing us d).2, List.getElem?_map, found, Option.map_some, stays]
  · intro c recorded
    obtain ⟨t, foundToo, member⟩ := mem_numbered.mp recorded
    obtain rfl := Option.some.inj (found.symm.trans foundToo)
    have nothing : slotChanges addMissing us [s] = [] := by
      refine records_eq_nil fun t inside u member => ?_
      rw [List.mem_singleton.mp inside]
      exact ⟨step_eq_self_of_refused (refused u member), change?_of_refused (refused u member)⟩
    exact List.eq_nil_iff_forall_not_mem.mp nothing c member

/-- The same for a sequence of runs. -/
theorem afterJobs_slot (found : d.slots[i]? = some s)
    (refused : ∀ job ∈ jobs, ∀ u ∈ job.upgrades, ¬ u.Admits job.addMissing s.pin) :
    (d.afterJobs jobs).slots[i]? = some s := by
  induction jobs generalizing d with
  | nil => exact found
  | cons job jobs ih =>
    rw [afterJobs_cons]
    exact ih (update_slot found (refused job List.mem_cons_self)).1
      fun later member => refused later (List.mem_cons_of_mem job member)

theorem untouched_of_refused (found : d.slots[i]? = some s)
    (refused : ∀ job ∈ jobs, ∀ u ∈ job.upgrades, ¬ u.Admits job.addMissing s.pin) :
    d.Untouched jobs i := by
  rintro earlier job later rfl
  -- At the moment of the run the slot is still what it was in the beginning.
  have now := afterJobs_slot found fun past member =>
    refused past (List.mem_append_left _ member)
  exact (update_slot now (refused job (List.mem_append_right _ List.mem_cons_self))).2

/-- Nothing is written at a slot where everything is refused. -/
theorem written_of_refused (refused : ∀ u ∈ us, ¬ u.Admits addMissing s.pin) :
    s.written addMissing us = none := by
  induction us with
  | nil => rfl
  | cons u us ih =>
    have first := refused u List.mem_cons_self
    have nothing : u.choice addMissing s.site = none := if_neg fun both => first both.1
    rw [Slot.written, step_eq_self_of_refused first, nothing,
      ih fun v member => refused v (List.mem_cons_of_mem u member)]
    rfl

variable {init rest : List Structure} {x : Structure}

/-- The text of a document has the text of each of its structures in it. -/
theorem text_of_split (split : d.body.items = init ++ x :: rest) :
    ∃ before after, d.text = String.ofList (before ++ x.chars ++ after) := by
  obtain ⟨before, after, encloses⟩ := encloses_body d.body.frame init rest
  refine ⟨before, after, ?_⟩
  calc d.text
    _ = String.ofList (Body.chars ⟨d.body.frame, init ++ x :: rest⟩) := by rw [← split]; rfl
    _ = String.ofList (before ++ x.chars ++ after) := congrArg String.ofList (encloses x)

/-- A structure where everything is refused stays in its place. -/
theorem update_structure (split : d.body.items = init ++ x :: rest)
    (refused : ∀ s ∈ structureShelf.slots x, ∀ u ∈ us, ¬ u.Admits addMissing s.pin) :
    ∃ init' rest', (d.update us addMissing).2.body.items = init' ++ x :: rest' ∧
      init'.length = init.length ∧ rest'.length = rest.length := by
  let p := d.writes addMissing us
  let k := (init.flatMap structureShelf.slots).length
  -- Nothing is written at the slots of the structure, and their numbers start at `k`.
  have stays : structureShelf.write (p.shift k) x = x := by
    refine structureShelf.write_eq_self _ x (Writes.repeats_of_none fun j bound => ?_)
    show d.slots[j + k]?.bind _ = none
    rw [slots_getElem?_of_split split bound, Option.bind_some]
    exact written_of_refused (refused _ (List.getElem_mem bound))
  rw [update_eq_write]
  refine ⟨structureShelf.writeList p init,
    structureShelf.writeList ((p.shift k).shift (structureShelf.slots x).length) rest, ?_,
    structureShelf.length_writeList p init, structureShelf.length_writeList _ rest⟩
  show structureShelf.writeList p d.body.items = _
  rw [split, Shelf.writeList_append, Shelf.writeList, stays]

/-- The same for a sequence of runs. -/
theorem afterJobs_structure (split : d.body.items = init ++ x :: rest)
    (refused : ∀ s ∈ structureShelf.slots x, ∀ job ∈ jobs, ∀ u ∈ job.upgrades,
      ¬ u.Admits job.addMissing s.pin) :
    ∃ init' rest', (d.afterJobs jobs).body.items = init' ++ x :: rest' ∧
      init'.length = init.length ∧ rest'.length = rest.length := by
  induction jobs generalizing d init rest with
  | nil => exact ⟨init, rest, split, rfl, rfl⟩
  | cons job jobs ih =>
    obtain ⟨init', rest', splitNow, front, behind⟩ := update_structure split
      fun s member => refused s member job List.mem_cons_self
    obtain ⟨init'', rest'', splitThen, front', behind'⟩ := ih splitNow
      fun s member later inside => refused s member later (List.mem_cons_of_mem job inside)
    exact ⟨init'', rest'', splitThen, front'.trans front, behind'.trans behind⟩

end Refused

section Changes

variable {us : List Upgrade} {addMissing : Bool} {u : Upgrade} {s : Slot} {c : Change}

/-- An upgrade moves a slot only from a version that it goes on from. -/
theorem allows_of_step (moves : s.step addMissing u ≠ s) : u.Allows addMissing s.pin.version := by
  by_contra refuses
  exact moves (step_eq_self_of_refused fun admits => refuses (admits_iff.mp admits).2)

/-- A change comes from an upgrade that goes on from the version before it. -/
theorem change_allowed (recorded : c ∈ slotChanges addMissing us [s]) :
    ∃ u ∈ us, c.after = u.target ∧ u.Allows addMissing c.before := by
  induction us generalizing s with
  | nil => cases recorded
  | cons u us ih =>
    rw [slotChanges, records_singleton_cons] at recorded
    rcases List.mem_append.mp recorded with here | later
    · obtain ⟨admits, -, rfl⟩ := change?_eq_some_iff.mp (Option.mem_toList.mp here)
      exact ⟨u, List.mem_cons_self, rfl, (admits_iff.mp admits).2⟩
    · obtain ⟨v, member, target, allows⟩ := ih later
      exact ⟨v, List.mem_cons_of_mem u member, target, allows⟩

end Changes

/-- A structure whose only site is that of a module is a block of this module. -/
theorem exists_block_of_module {x : Structure} {site : Site} (sites : structureSites x = [site])
    (kind : site.pin.kind = .module) : ∃ layout gap labels frame items,
      x = .block layout moduleWord gap labels frame items ∧ site = moduleSite labels items := by
  cases x with
  | attr => cases sites
  | block layout word gap labels frame items =>
    rw [structureSites] at sites
    -- The site of a `terraform` block is of another kind, and other blocks have none.
    split at sites
    case isTrue isModule =>
      rw [isModule]
      exact ⟨layout, gap, labels, frame, items, rfl, (List.cons.inj sites).1.symm⟩
    case isFalse =>
      split at sites
      case isTrue =>
        rw [← (List.cons.inj sites).1] at kind
        cases kind
      case isFalse => cases sites

/-- A module from a local source is refused by every upgrade. -/
theorem refused_of_local {labels : List Label} {items : List Structure} {layout : Layout}
    {gap : Chars} {frame : Frame} {s : Slot}
    (localSource : ∃ lead ∈ ["./", "../", "/"],
      lead.toList <+: (moduleSite labels items).pin.key.toList)
    (member : s ∈ structureShelf.slots (.block layout moduleWord gap labels frame items))
    (u : Upgrade) (addMissing : Bool) : ¬ u.Admits addMissing s.pin := by
  intro admits
  have site : s.site ∈ structureSites (.block layout moduleWord gap labels frame items) := by
    rw [structureSites_eq]
    exact List.mem_map_of_mem member
  rw [structureSites, if_pos rfl, List.mem_singleton] at site
  -- The key of the pin is the source, and nothing admits a module whose source is local.
  obtain ⟨-, notLocal, -⟩ := (admits_iff.mp admits).1
  refine notLocal ⟨by rw [Slot.pin, site]; rfl, ?_⟩
  rw [Slot.pin, site]
  simpa [isLocalSource, List.isPrefixOf_iff_prefix, or_assoc] using localSource

/-- What is kept through all runs.

* A module whose source starts like a path stays in its place, the document is printed with the text
  of the module in it, and no run records a change of the module.
* A slot with a name stays as it is if each upgrade that addresses its pin has a pattern for names
  to keep that describes the name, and no run records a change there.
* The same is true of a slot from whose version no upgrade that addresses its pin goes on: the
  version is one of those to keep, or there are versions to start from and it is none of these, or
  it is missing and may not be added in this run.
* In every run the recorded changes are those of the slots, an upgrade moves a slot only if it goes
  on from the version that stands there at this moment, and a recorded change starts from a version
  that its upgrade goes on from. -/
theorem afterJobs_protects (d : Document) (jobs : List Job) :
    (∀ init layout gap labels frame items rest,
      d.body.items = init ++ .block layout moduleWord gap labels frame items :: rest →
      (∃ lead ∈ ["./", "../", "/"], lead.toList <+: (moduleSite labels items).pin.key.toList) →
      (∃ init' rest', (d.afterJobs jobs).body.items =
          init' ++ .block layout moduleWord gap labels frame items :: rest' ∧
        init'.length = init.length ∧ rest'.length = rest.length) ∧
      (∃ before after, (d.afterJobs jobs).text = String.ofList
        (before ++ (Structure.block layout moduleWord gap labels frame items).chars ++ after)) ∧
      d.Untouched jobs (init.flatMap structureSites).length) ∧
    (∀ i s, d.slots[i]? = some s → s.name ≠ "" →
      (∀ job ∈ jobs, ∀ u ∈ job.upgrades, u.addresses s.pin = true →
        ∃ pattern ∈ u.keepNames, Wildcard.Describes pattern.toList s.name.toList) →
      (d.afterJobs jobs).slots[i]? = some s ∧ d.Untouched jobs i) ∧
    (∀ i s, d.slots[i]? = some s →
      (∀ job ∈ jobs, ∀ u ∈ job.upgrades, u.addresses s.pin = true →
        ¬ u.Allows job.addMissing s.pin.version) →
      (d.afterJobs jobs).slots[i]? = some s ∧ d.Untouched jobs i) ∧
    ∀ earlier job later, jobs = earlier ++ job :: later →
      (job.updateDocument (d.afterJobs earlier)).1.changes =
        ((d.afterJobs earlier).numberedChanges job.upgrades job.addMissing).map Prod.snd ∧
      (∀ done u others, job.upgrades = done ++ u :: others → ∀ (i : Nat) (s : Slot),
        ((d.afterJobs earlier).update done job.addMissing).2.slots[i]? = some s →
        ((d.afterJobs earlier).update (done ++ [u]) job.addMissing).2.slots[i]? ≠ some s →
        u.Allows job.addMissing s.pin.version) ∧
      ∀ i c, (i, c) ∈ (d.afterJobs earlier).numberedChanges job.upgrades job.addMissing →
        ∃ u ∈ job.upgrades, c.after = u.target ∧ u.Allows job.addMissing c.before := by
  refine ⟨?_, ?_, ?_, ?_⟩
  · intro init layout gap labels frame items rest split localSource
    have refused : ∀ s ∈ structureShelf.slots (.block layout moduleWord gap labels frame items),
        ∀ job ∈ jobs, ∀ u ∈ job.upgrades, ¬ u.Admits job.addMissing s.pin :=
      fun s member job _ u _ => refused_of_local localSource member u job.addMissing
    obtain ⟨init', rest', splitNow, front, behind⟩ := afterJobs_structure split refused
    refine ⟨⟨init', rest', splitNow, front, behind⟩, text_of_split splitNow, ?_⟩
    -- A module has one slot, and its number is that of the slots in front of it.
    have number : (init.flatMap structureSites).length =
        0 + (init.flatMap structureShelf.slots).length := by
      rw [Nat.zero_add, List.length_flatMap, List.length_flatMap]
      simp only [structureSites_eq, List.length_map]
    have bound : 0 <
        (structureShelf.slots (.block layout moduleWord gap labels frame items)).length :=
      Nat.one_pos
    rw [number]
    exact untouched_of_refused (slots_getElem?_of_split split bound)
      (refused _ (List.getElem_mem bound))
  · intro i s found named keeps
    have refused : ∀ job ∈ jobs, ∀ u ∈ job.upgrades, ¬ u.Admits job.addMissing s.pin := by
      intro job member u inside admits
      obtain ⟨addressed, -, unkept⟩ := (admits_iff.mp admits).1
      exact unkept ⟨named, Wildcard.acceptsAny_of_describes (keeps job member u inside addressed)⟩
    exact ⟨afterJobs_slot found refused, untouched_of_refused found refused⟩
  · intro i s found stuck
    have refused : ∀ job ∈ jobs, ∀ u ∈ job.upgrades, ¬ u.Admits job.addMissing s.pin := by
      intro job member u inside admits
      exact stuck job member u inside admits.1 (admits_iff.mp admits).2
    exact ⟨afterJobs_slot found refused, untouched_of_refused found refused⟩
  · intro earlier job later _
    refine ⟨(map_numberedChanges _ _ _).symm, fun done u others _ i s found moved => ?_,
      fun i c recorded => ?_⟩
    · -- The upgrade takes the slot from the state that those before it have left.
      rw [(update_eq _ _ _).2, List.getElem?_map] at found moved
      obtain ⟨start, there, rfl⟩ := Option.map_eq_some_iff.mp found
      rw [there, Option.map_some, List.foldl_append] at moved
      exact allows_of_step fun stays => moved (congrArg some stays)
    · obtain ⟨s, -, member⟩ := mem_numbered.mp recorded
      exact change_allowed member

/-- A module from a folder, and one from elsewhere with a version. -/
def localAndRemote : String :=
  "module \"m\" \x7b\n  source = \"./m\"\n\x7d\n" ++
    "module \"a\" \x7b\n  source = \"s\"\n  version = \"1\"\n\x7d\n"

/-- Two runs with versions for all modules but those whose names begin with `a`. -/
def twoRuns : List Job :=
  [{ upgrades := [{ kind := .module, key := none, target := "2", keepNames := ["a*"] }],
     addMissing := true },
    { upgrades := [{ kind := .module, key := none, target := "3", keepNames := ["a*"] }] }]

theorem afterJobs_protects_localAndRemote :
    ∃ d, read? localAndRemote = some d ∧
      (∃ layout gap labels frame items rest,
        (d.body.items = [] ++ .block layout moduleWord gap labels frame items :: rest ∧
          ∃ lead ∈ ["./", "../", "/"], lead.toList <+: (moduleSite labels items).pin.key.toList) ∧
        (∃ init' rest', (d.afterJobs twoRuns).body.items =
            init' ++ .block layout moduleWord gap labels frame items :: rest' ∧
          init'.length = ([] : List Structure).length ∧ rest'.length = rest.length) ∧
        d.Untouched twoRuns 0) ∧
      ∃ s, (d.slots[1]? = some s ∧ s.name ≠ "" ∧
          ∀ job ∈ twoRuns, ∀ u ∈ job.upgrades, u.addresses s.pin = true →
            ∃ pattern ∈ u.keepNames, Wildcard.Describes pattern.toList s.name.toList) ∧
        (d.afterJobs twoRuns).slots[1]? = some s ∧ d.Untouched twoRuns 1 := by
  have evaluated : (read? localAndRemote).map (fun d => (d.slots.map Slot.name,
      d.body.items.map fun x => (structureSites x).map fun site => (site.pin.kind, site.pin.key))) =
      some (["m", "a"], [[(.module, "./m")], [(.module, "s")]]) := by
    decide +kernel
  obtain ⟨d, read, both⟩ := Option.map_eq_some_iff.mp evaluated
  obtain ⟨names, pins⟩ := Prod.mk.inj both
  obtain ⟨locals, named, -⟩ := d.afterJobs_protects twoRuns
  refine ⟨d, read, ?_, ?_⟩
  · obtain ⟨x, rest, split, pin, -⟩ := List.map_eq_cons_iff.mp pins
    obtain ⟨site, sites, shown⟩ := List.map_eq_singleton_iff.mp pin
    obtain ⟨kind, source⟩ := Prod.mk.inj shown
    obtain ⟨layout, gap, labels, frame, items, rfl, rfl⟩ := exists_block_of_module sites kind
    have localSource : ∃ lead ∈ ["./", "../", "/"],
        lead.toList <+: (moduleSite labels items).pin.key.toList := by
      rw [source]
      exact ⟨"./", by simp, by decide⟩
    obtain ⟨stays, -, untouched⟩ := locals [] layout gap labels frame items rest split localSource
    exact ⟨layout, gap, labels, frame, items, rest, ⟨split, localSource⟩, stays, untouched⟩
  · have name := congrArg (·[1]?) names
    rw [List.getElem?_map] at name
    obtain ⟨s, found, called⟩ := Option.map_eq_some_iff.mp name
    have keeps : ∀ job ∈ twoRuns, ∀ u ∈ job.upgrades, u.addresses s.pin = true →
        ∃ pattern ∈ u.keepNames, Wildcard.Describes pattern.toList s.name.toList := by
      have described : Wildcard.Describes ['a', '*'] s.name.toList := by
        rw [called]
        exact .char (by decide) (.star [] .done)
      simp [twoRuns, described]
    have other : s.name ≠ "" := by
      rw [called]
      decide
    exact ⟨s, ⟨found, other, keeps⟩, named 1 s found other keeps⟩

end Document

end TerraformPins
