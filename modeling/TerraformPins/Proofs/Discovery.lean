import Mathlib.Data.List.Lex
import Mathlib.Data.List.Nodup
import Mathlib.Data.String.Basic
import TerraformPins.Proofs.Glob.Components
import TerraformPins.Proofs.Path

/-!
# What a search finds

A search goes down folder by folder and leaves out whole folders. Nevertheless a file is found
exactly if a condition holds that speaks of the file alone: neither the file nor a folder on the way
to it is left out, each of them judged in its own place, and the folders on the way can be read. The
walk carries the scopes of the folders it is in and whether it can get there, so the induction over
the tree is about a part of the tree together with what is around it, and what it says of a part is
said in terms of the whole.

## Main definitions

* `FileTree.Sound` — a tree in which the names in a folder are proper and different
* `FileTree.LeftOut` — what is left out of a search
* `FileTree.ComesTo` — the files that a search comes to
* `FileTree.globText` — the text of a glob

## Main results

* `FileTree.mem_visible` — the walk through a part of a tree
* `Location.le_iff` — the order of the found files is that of their names, component by component
* `FileTree.matching?_finds` — the files that a pattern means
-/

namespace TerraformPins

/-! ### The order of locations -/

section Order

theorem lexLe_iff {α : Type} [LinearOrder α] {le : α → α → Bool}
    (le_iff : ∀ x y, le x y = true ↔ x ≤ y) (xs ys : List α) : lexLe le xs ys = true ↔ xs ≤ ys := by
  rw [le_iff_eq_or_lt]
  induction xs generalizing ys with
  | nil => cases ys <;> simp [lexLe]
  | cons x xs ih =>
    cases ys with
    | nil => simp [lexLe]
    | cons y ys =>
      rw [lexLe, List.cons_lt_cons_iff]
      by_cases same : x = y
      · simp [same, ih]
      · rw [if_neg same, le_iff]
        simp [same, lt_iff_le_and_ne]

theorem Location.nameLe_iff (a b : String) : nameLe a b = true ↔ a ≤ b := by
  rw [String.le_iff_toList_le, nameLe]
  exact lexLe_iff (fun c d => by rw [decide_eq_true_iff]; exact Iff.rfl) _ _

/-- Locations are ordered by the first name in which they differ. -/
theorem Location.le_iff (a b : Location) : le a b = true ↔ a ≤ b :=
  lexLe_iff nameLe_iff a b

/-- Sorting puts different locations in strict order. -/
theorem Location.pairwise_mergeSort {places : List Location} (distinct : places.Nodup) :
    (places.mergeSort le).Pairwise (· < ·) := by
  have sorted := @List.pairwise_mergeSort _ le
    (fun a b c first second => by
      rw [le_iff] at first second ⊢
      exact first.trans second)
    (fun a b => by
      rw [Bool.or_eq_true, le_iff, le_iff]
      exact le_total a b) places
  have different : (places.mergeSort le).Nodup :=
    (List.mergeSort_perm places le).nodup_iff.mpr distinct
  refine (sorted.and different).imp fun {a b} both => ?_
  exact lt_of_le_of_ne ((le_iff a b).mp both.1) both.2

end Order

namespace FileTree

/-! ### Sound trees -/

/-- A tree in which the names in every folder are proper and all different. -/
inductive Sound : FileTree → Prop where
  | file (data : File) : Sound (.file data)
  | link (target : String) : Sound (.link target)
  | folder {access : FolderAccess} {entries : List (String × FileTree)}
      (distinct : (entries.map Prod.fst).Nodup) (named : ∀ e ∈ entries, Path.IsName e.1)
      (inner : ∀ e ∈ entries, Sound e.2) : Sound (.folder access entries)

variable {t part : FileTree} {entries : List (String × FileTree)} {name : String}

theorem mem_of_lookup (found : entries.lookup name = some part) : (name, part) ∈ entries := by
  obtain ⟨front, back, split, -⟩ := List.lookup_eq_some_iff.mp found
  rw [split]
  exact List.mem_append_right front List.mem_cons_self

theorem lookup_eq_some_iff_mem (distinct : (entries.map Prod.fst).Nodup) :
    entries.lookup name = some part ↔ (name, part) ∈ entries := by
  refine ⟨mem_of_lookup, fun member => ?_⟩
  induction entries with
  | nil => cases member
  | cons e entries ih =>
    rw [List.map_cons, List.nodup_cons] at distinct
    rcases List.mem_cons.mp member with rfl | inside
    · simp
    · have differs : (name == e.1) = false := by
        rw [beq_eq_false_iff_ne]
        rintro rfl
        exact distinct.1 (List.mem_map.mpr ⟨_, inside, rfl⟩)
      rw [List.lookup_cons, differs]
      exact ih distinct.2 inside

/-- What is below a sound tree is sound, and the names on the way are proper. -/
theorem Sound.get? (sound : t.Sound) {names : Location} (found : t.get? names = some part) :
    part.Sound ∧ ∀ name ∈ names, Path.IsName name := by
  induction sound generalizing names with
  | file data =>
    cases names with
    | nil =>
      obtain rfl := Option.some.inj found
      exact ⟨.file data, nofun⟩
    | cons => cases found
  | link target =>
    cases names with
    | nil =>
      obtain rfl := Option.some.inj found
      exact ⟨.link target, nofun⟩
    | cons => cases found
  | folder distinct named inner ih =>
    cases names with
    | nil =>
      obtain rfl := Option.some.inj found
      exact ⟨.folder distinct named inner, nofun⟩
    | cons name names =>
      obtain ⟨child, there, below⟩ := Option.bind_eq_some_iff.mp found
      have member := mem_of_lookup there
      obtain ⟨sound, proper⟩ := ih _ member below
      exact ⟨sound, List.forall_mem_cons.mpr ⟨named _ member, proper⟩⟩

/-! ### What a search comes to -/

open IgnoreScope

/-- What a search leaves out, judged in its place: a rule leaves it out, or it is hidden and no rule
keeps it. -/
inductive LeftOut (t : FileTree) (folder : Location) (name : String) : Prop where
  | byRule (ruled : judge (above t (folder ++ [name])) (folder ++ [name])
      (t.isFolderAt (folder ++ [name])) = some .leaveOut)
  | hidden (unruled : judge (above t (folder ++ [name])) (folder ++ [name])
      (t.isFolderAt (folder ++ [name])) = none) (dot : isHidden name = true)

/-- A search below `place` comes to a regular file if neither the file nor a folder on the way is
left out, and the folders on the way can be read: each of them can be listed, and each but the last
can be entered. The last one need not be, since a list of its entries already tells which of them
are files. -/
structure ComesTo (t : FileTree) (place names : Location) : Prop where
  isFile : t.fileAt? (place ++ names) ≠ none
  shown : ∀ front name back, names = front ++ name :: back → ¬ t.LeftOut (place ++ front) name
  listed : ∀ front name back, names = front ++ name :: back → t.canList (place ++ front) = true
  passable : t.Passable place names.dropLast

theorem leavesOut_iff {folder : Location} :
    leavesOut (above t (folder ++ [name])) folder name (t.isFolderAt (folder ++ [name])) = true ↔
      t.LeftOut folder name := by
  unfold leavesOut
  constructor
  · intro out
    split at out
    case h_1 ruled => exact .byRule ruled
    case h_2 => cases out
    case h_3 unruled => exact .hidden unruled out
  · rintro (ruled | ⟨unruled, dot⟩)
    · rw [ruled]
    · rw [unruled, dot]

/-- The scopes around an entry of a folder are those around the folder and its own. -/
theorem above_append (t : FileTree) (folder : Location) (name : String) :
    above t (folder ++ [name]) = ofFolder t folder :: above t folder := by
  unfold above
  rw [List.length_append, List.length_singleton, List.range_succ, List.reverse_append,
    List.reverse_singleton, List.singleton_append, List.map_cons, List.take_left]
  congr 1
  apply List.map_congr_left
  intro n member
  rw [List.take_append_of_le_length]
  simp at member
  omega

/-- What holds at each folder on the way down by a first name and others holds at the first one, and
at the others on the way on from there. -/
theorem forall_onWay_cons (holds : Location → String → Prop) {place names : Location} :
    (∀ front last back, name :: names = front ++ last :: back → holds (place ++ front) last) ↔
      holds place name ∧
        ∀ front last back, names = front ++ last :: back →
          holds (place ++ [name] ++ front) last := by
  have path (front : Location) : place ++ name :: front = place ++ [name] ++ front := by simp
  constructor
  · intro all
    refine ⟨by simpa using all [] name names rfl, fun front last back split => ?_⟩
    rw [← path]
    exact all (name :: front) last back (by rw [split, List.cons_append])
  · rintro ⟨here, below⟩ front last back split
    cases front with
    | nil =>
      obtain ⟨rfl, -⟩ := List.cons.inj split
      rwa [List.append_nil]
    | cons first front =>
      obtain ⟨rfl, rest⟩ := List.cons.inj split
      rw [path]
      exact below front last back rest

/-- A search comes to a file below an entry of a folder if it can list the folder, does not leave
out the entry, and comes to the file from there. If the entry is a folder, it has to get through
this one. -/
theorem comesTo_cons {place names : Location} :
    t.ComesTo place (name :: names) ↔
      t.canList place = true ∧ ¬ t.LeftOut place name ∧ t.ComesTo (place ++ [name]) names ∧
        (names = [] ∨ t.canEnter place = true) := by
  have through : t.Passable place (name :: names).dropLast ↔
      t.Passable (place ++ [name]) names.dropLast ∧ (names = [] ∨ t.canEnter place = true) := by
    cases names with
    | nil => simp [passable_nil]
    | cons next names => simp [passable_cons, and_comm]
  have path : place ++ name :: names = place ++ [name] ++ names := by simp
  have shownHere := @forall_onWay_cons name (fun folder name => ¬ t.LeftOut folder name) place names
  have listedHere := @forall_onWay_cons name (fun folder _ => t.canList folder = true) place names
  constructor
  · rintro ⟨isFile, shown, listed, passable⟩
    obtain ⟨notOut, shown⟩ := shownHere.mp shown
    obtain ⟨list, listed⟩ := listedHere.mp listed
    obtain ⟨passable, enter⟩ := through.mp passable
    exact ⟨list, notOut, ⟨path ▸ isFile, shown, listed, passable⟩, enter⟩
  · rintro ⟨list, notOut, ⟨isFile, shown, listed, passable⟩, enter⟩
    exact ⟨path ▸ isFile, shownHere.mpr ⟨notOut, shown⟩, listedHere.mpr ⟨list, listed⟩,
      through.mpr ⟨passable, enter⟩⟩

/-- The files that a search comes to in the entries of a folder are those in the entries that it
does not leave out. -/
theorem mem_visibleEntries {whole : FileTree} {scopes : List IgnoreScope} {reached : Bool}
    {here names : Location} :
    names ∈ visibleEntries whole scopes reached here entries ↔
      ∃ name part below, names = name :: below ∧ (name, part) ∈ entries ∧
        leavesOut scopes here name part.isFolder = false ∧
        below ∈ visible whole scopes reached (here ++ [name]) part := by
  induction entries with
  | nil => simp [visibleEntries]
  | cons e entries ih =>
    obtain ⟨first, child⟩ := e
    rw [visibleEntries, List.mem_append, ih]
    constructor
    · rintro (inFirst | ⟨name, part, below, rfl, member, shown, inside⟩)
      · by_cases out : leavesOut scopes here first child.isFolder = true
        · rw [if_pos out] at inFirst
          cases inFirst
        · rw [if_neg out] at inFirst
          obtain ⟨below, inside, rfl⟩ := List.mem_map.mp inFirst
          exact ⟨first, child, below, rfl, List.mem_cons_self, by simpa using out, inside⟩
      · exact ⟨name, part, below, rfl, List.mem_cons_of_mem _ member, shown, inside⟩
    · rintro ⟨name, part, below, rfl, member, shown, inside⟩
      rcases List.mem_cons.mp member with same | later
      · obtain ⟨rfl, rfl⟩ := Prod.mk.inj same
        rw [if_neg (by simp [shown])]
        exact .inl (List.mem_map_of_mem inside)
      · exact .inr ⟨name, part, below, rfl, later, shown, inside⟩

theorem isFolderAt_eq_isFolder {place : Location} (found : t.get? place = some part) :
    t.isFolderAt place = part.isFolder := by
  rw [isFolderAt, found]
  cases part <;> rfl

/-- The entry of a name in a folder is what lies there in the whole tree. -/
theorem get?_entry {whole : FileTree} {here : Location} {access : FolderAccess}
    (distinct : (entries.map Prod.fst).Nodup)
    (found : whole.get? here = some (.folder access entries)) (member : (name, part) ∈ entries) :
    whole.get? (here ++ [name]) = some part := by
  rw [get?_append, found, Option.bind_some, get?, (lookup_eq_some_iff_mem distinct).mpr member,
    Option.bind_some, get?_nil]

/-- What there is below a folder is below one of its entries. -/
theorem exists_entry_of_fileAt? {whole : FileTree} {here below : Location} {access : FolderAccess}
    (found : whole.get? here = some (.folder access entries))
    (isFile : whole.fileAt? (here ++ name :: below) ≠ none) : ∃ part, (name, part) ∈ entries := by
  obtain ⟨part, there⟩ : ∃ part, entries.lookup name = some part := by
    apply Option.ne_none_iff_exists'.mp
    intro none
    simp [fileAt?, get?_append, found, get?, none] at isFile
  exact ⟨part, mem_of_lookup there⟩

/-- A walk through a part of a tree, with the scopes around it, finds the files that a search below
the place of the part comes to. If the part is a folder, the walk has to get there. -/
theorem mem_visible {whole : FileTree} (sound : part.Sound) {reached : Bool}
    {here names : Location} (found : whole.get? here = some part) :
    names ∈ visible whole (above whole here) reached here part ↔
      whole.ComesTo here names ∧ (names = [] ∨ reached = true) := by
  -- On the part, wherever it lies in the whole: with each folder one scope more is around.
  induction sound generalizing reached here names with
  | file data =>
    rw [visible, List.mem_singleton]
    constructor
    · rintro rfl
      exact ⟨⟨by simp [fileAt?, found], by simp, by simp, passable_nil _ _⟩, .inl rfl⟩
    · rintro ⟨comes, -⟩
      cases names with
      | nil => rfl
      | cons name names =>
        have isFile := comes.isFile
        simp [fileAt?, get?_append, found, get?] at isFile
  | link target =>
    rw [visible]
    refine iff_of_false List.not_mem_nil ?_
    rintro ⟨comes, -⟩
    have isFile := comes.isFile
    cases names <;> simp [fileAt?, get?_append, found, get?] at isFile
  | @folder access entries distinct named inner ih =>
    have list : whole.canList here = access.listable := by rw [canList, found]
    have enter : whole.canEnter here = access.enterable := by rw [canEnter, found]
    have judged {name : String} {part : FileTree} (member : (name, part) ∈ entries) :
        leavesOut (ofFolder whole here :: above whole here) here name part.isFolder = false ↔
          ¬ whole.LeftOut here name := by
      rw [← leavesOut_iff, isFolderAt_eq_isFolder (get?_entry distinct found member), above_append,
        Bool.not_eq_true]
    have inEntry {name : String} {part : FileTree} {below : Location}
        (member : (name, part) ∈ entries) :
        below ∈ visible whole (ofFolder whole here :: above whole here) access.enterable
            (here ++ [name]) part ↔
          whole.ComesTo (here ++ [name]) below ∧ (below = [] ∨ whole.canEnter here = true) := by
      rw [← above_append, enter]
      exact ih _ member (get?_entry distinct found member)
    constructor
    · intro inside
      rw [visible] at inside
      split at inside
      case isFalse => cases inside
      case isTrue both =>
        obtain ⟨arrived, listable⟩ := Bool.and_eq_true_iff.mp both
        obtain ⟨name, part, below, rfl, member, shown, inside⟩ := mem_visibleEntries.mp inside
        exact ⟨comesTo_cons.mpr ⟨list.trans listable, (judged member).mp shown,
          (inEntry member).mp inside⟩, .inr arrived⟩
    · rintro ⟨comes, arrived⟩
      cases names with
      | nil =>
        -- A folder is not a file that a search comes to.
        have isFile := comes.isFile
        simp [fileAt?, found] at isFile
      | cons name below =>
        obtain ⟨part, member⟩ := exists_entry_of_fileAt? found comes.isFile
        obtain ⟨listable, shown, inside⟩ := comesTo_cons.mp comes
        have both : (reached && access.listable) = true := by
          simpa [list] using And.intro (arrived.resolve_left (List.cons_ne_nil _ _)) listable
        rw [visible, if_pos both]
        exact mem_visibleEntries.mpr
          ⟨name, part, below, rfl, member, (judged member).mpr shown, (inEntry member).mpr inside⟩

/-- A walk comes to each file once. -/
theorem nodup_visible {whole : FileTree} (sound : part.Sound) (scopes : List IgnoreScope)
    (reached : Bool) (here : Location) : (visible whole scopes reached here part).Nodup := by
  induction sound generalizing scopes reached here with
  | file data => exact List.nodup_singleton _
  | link target => exact List.nodup_nil
  | @folder access entries distinct named inner ih =>
    rw [visible]
    split
    case isFalse => exact List.nodup_nil
    -- The scopes are those of the whole folder, also for the entries that are left in the
    -- induction.
    clear named inner
    generalize ofFolder whole here :: scopes = scopes
    induction entries with
    | nil => exact List.nodup_nil
    | cons e entries more =>
      rw [List.map_cons, List.nodup_cons] at distinct
      rw [visibleEntries]
      refine List.Nodup.append ?_
        (more distinct.2 fun e member => ih e (List.mem_cons_of_mem _ member)) ?_
      · split
        · exact List.nodup_nil
        · exact (ih e List.mem_cons_self _ _ _).map List.cons_injective
      · -- What is found in the first entry begins with its name, and no other entry has this name.
        intro names inFirst later
        obtain ⟨name, part, below, rfl, member, -⟩ := mem_visibleEntries.mp later
        split at inFirst
        · cases inFirst
        · obtain ⟨_, -, same⟩ := List.mem_map.mp inFirst
          obtain ⟨rfl, -⟩ := List.cons.inj same
          exact distinct.1 (List.mem_map.mpr ⟨_, member, rfl⟩)

/-! ### The answer of a search -/

variable {root : String}

theorem mem_visibleBelow (sound : t.Sound) {names : Location} :
    names ∈ t.visibleBelow root ↔ ∃ place, t.place root = .ok place ∧ t.ComesTo place names := by
  unfold visibleBelow
  cases reached : t.place root with
  | error fault => simp
  | ok place =>
    simp only [Except.ok.injEq, exists_eq_left']
    cases found : t.get? place with
    | some part =>
      have inside := @mem_visible part t (sound.get? found).1 true place names found
      rwa [and_iff_left (.inr rfl)] at inside
    | none =>
      refine iff_of_false List.not_mem_nil fun comes => comes.isFile ?_
      simp [fileAt?, get?_append, found]

theorem nodup_visibleBelow (sound : t.Sound) (root : String) : (t.visibleBelow root).Nodup := by
  unfold visibleBelow
  cases t.place root with
  | error fault => exact List.nodup_nil
  | ok place =>
    cases found : t.get? place with
    | some part =>
      simp only [found]
      exact nodup_visible (sound.get? found).1 _ _ _
    | none =>
      simp only [found]
      exact List.nodup_nil

theorem mem_matchingBelow (sound : t.Sound) {glob : Glob} {names : Location} :
    names ∈ t.matchingBelow root glob ↔
      (∃ place, t.place root = .ok place ∧ t.ComesTo place names) ∧
        glob.Describes (utf8Bytes (Path.ofNames names)) := by
  rw [matchingBelow, List.mem_mergeSort, List.mem_filter, mem_visibleBelow sound, Glob.accepts,
    Glob.acceptsBytes_iff_describes]

theorem pairwise_matchingBelow (sound : t.Sound) (root : String) (glob : Glob) :
    (t.matchingBelow root glob).Pairwise (· < ·) :=
  Location.pairwise_mergeSort ((nodup_visibleBelow sound root).filter _)

/-- The names on the way to a file are proper. -/
theorem ComesTo.named (sound : t.Sound) {place names : Location} (comes : t.ComesTo place names) :
    ∀ name ∈ names, Path.IsName name := by
  cases found : t.get? (place ++ names) with
  | none => exact absurd (by rw [fileAt?, found]) comes.isFile
  | some part =>
    intro name member
    exact (sound.get? found).2 name (List.mem_append_right place member)

/-- The text of a glob: one `./` at the front of a pattern does not count. -/
def globText (pattern : String) : List Char :=
  (stripFront? ['.', '/'] pattern.toList).getD pattern.toList

/-- The files that a pattern means.

* If the pattern is the path of an existing file, the answer is this path.
* Otherwise the pattern has to be a glob; if it is not, there is no answer.
* The answer to a glob is in strict order, path component by path component, so no path is in it
  twice. It consists of the paths of the regular files below the root that the glob describes and
  that lie, with all folders on the way, where a search does not leave them out and can read the
  folders. Each path reaches its file if the folders on the way can be entered.
* A plain glob describes a path if its components match the names: a star stays within its name, and
  only a `**` that is a component of its own goes from folder to folder. -/
theorem matching?_finds (t : FileTree) (sound : t.Sound) (root pattern : String) :
    (t.isFile (Path.join root pattern) = true →
      t.matching? root pattern = some [Path.join root pattern]) ∧
    (t.isFile (Path.join root pattern) = false → globOf? pattern = none →
      t.matching? root pattern = none) ∧
    (t.isFile (Path.join root pattern) = false → ∀ glob, globOf? pattern = some glob →
      ∃ paths, t.matching? root pattern = some paths ∧
        paths.Pairwise (fun p q => Path.components p < Path.components q) ∧ paths.Nodup ∧
        (∀ path, path ∈ paths ↔ ∃ place names, t.place root = .ok place ∧
          path = pathBelow root names ∧ t.ComesTo place names ∧
          glob.Describes (utf8Bytes (Path.ofNames names))) ∧
        ∀ place names, t.place root = .ok place → t.ComesTo place names → t.Passable place names →
          t.place (pathBelow root names) = .ok (place ++ names)) ∧
    (Glob.IsPlain (globText pattern) → ∃ glob, globOf? pattern = some glob ∧
      ∀ names, names ≠ [] → (∀ name ∈ names, Path.IsName name) →
        (glob.Describes (utf8Bytes (Path.ofNames names)) ↔
          Glob.Matches (Glob.components (globText pattern)) names)) := by
  refine ⟨fun isFile => if_pos isFile, fun noFile invalid => ?_, fun noFile glob valid => ?_,
    fun plain => ?_⟩
  · rw [matching?, if_neg (by simp [noFile]), invalid, Option.map_none]
  · have ordered : ((t.matchingBelow root glob).map (pathBelow root)).Pairwise
        fun p q => Path.components p < Path.components q := by
      rw [List.pairwise_map]
      refine (pairwise_matchingBelow sound root glob).imp_of_mem fun {a b} first second less => ?_
      obtain ⟨⟨_, -, comesA⟩, -⟩ := (mem_matchingBelow sound).mp first
      obtain ⟨⟨_, -, comesB⟩, -⟩ := (mem_matchingBelow sound).mp second
      rw [Path.components_pathBelow (comesA.named sound),
        Path.components_pathBelow (comesB.named sound)]
      exact List.append_left_lt less
    refine ⟨_, by rw [matching?, if_neg (by simp [noFile]), valid, Option.map_some], ordered,
      ?_, ?_, ?_⟩
    · exact ordered.imp fun less same => by simp [same] at less
    · intro path
      simp only [List.mem_map, mem_matchingBelow sound]
      constructor
      · rintro ⟨names, ⟨⟨place, reached, comes⟩, described⟩, rfl⟩
        exact ⟨place, names, reached, rfl, comes, described⟩
      · rintro ⟨place, names, reached, rfl, comes, described⟩
        exact ⟨names, ⟨⟨place, reached, comes⟩, described⟩, rfl⟩
    · intro place names reached comes passable
      exact place_pathBelow reached (comes.named sound) passable comes.isFile
  · have read := Glob.ofChars?_of_isPlain .refused plain
    exact ⟨_, read, fun names present named =>
      Glob.describes_iff_matches plain read present fun name member => (named name member).noSlash⟩

/-- A file without bytes. -/
def emptyFile : FileTree :=
  .file { bytes := .empty, mode := 0o644 }

/-- A folder with a module in it, another one in a folder below, and a third one in a folder that
cannot be listed. -/
def threeModules : FileTree :=
  .folder {} [("main.tf", emptyFile), ("net", .folder {} [("vpc.tf", emptyFile)]),
    ("old", .folder { listable := false } [("dns.tf", emptyFile)])]

theorem sound_threeModules : threeModules.Sound := by
  have single {access : FolderAccess} {name : String} (isName : Path.IsName name) :
      (FileTree.folder access [(name, emptyFile)]).Sound := by
    refine .folder (by simp) (by simpa using isName) fun e member => ?_
    obtain rfl := List.mem_singleton.mp member
    exact .file _
  refine .folder (by decide) (by decide) fun e member => ?_
  rcases List.mem_cons.mp member with rfl | member
  · exact .file _
  · rcases List.mem_pair.mp member with rfl | rfl
    · exact single (by decide)
    · exact single (by decide)

theorem matching?_finds_threeModules :
    threeModules.Sound ∧ threeModules.isFile (Path.join "/" "*/*.tf") = false ∧
      Glob.IsPlain (globText "*/*.tf") ∧
      ∃ glob, globOf? "*/*.tf" = some glob ∧
        (∃ paths, threeModules.matching? "/" "*/*.tf" = some paths ∧
          paths.Pairwise (fun p q => Path.components p < Path.components q) ∧ paths.Nodup ∧
          (∀ path, path ∈ paths ↔ ∃ place names, threeModules.place "/" = .ok place ∧
            path = pathBelow "/" names ∧ threeModules.ComesTo place names ∧
            glob.Describes (utf8Bytes (Path.ofNames names))) ∧
          (∀ place names, threeModules.place "/" = .ok place → threeModules.ComesTo place names →
            threeModules.Passable place names →
            threeModules.place (pathBelow "/" names) = .ok (place ++ names)) ∧
          paths = ["/net/vpc.tf"]) ∧
        ∀ names, names ≠ [] → (∀ name ∈ names, Path.IsName name) →
          (glob.Describes (utf8Bytes (Path.ofNames names)) ↔
            Glob.Matches [['*'], ['*', '.', 't', 'f']] names) := by
  have noFile : threeModules.isFile (Path.join "/" "*/*.tf") = false := by decide +kernel
  have plain : Glob.IsPlain (globText "*/*.tf") := by decide +kernel
  have parts : Glob.components (globText "*/*.tf") = [['*'], ['*', '.', 't', 'f']] := by
    decide +kernel
  have answer : threeModules.matching? "/" "*/*.tf" = some ["/net/vpc.tf"] := by decide +kernel
  obtain ⟨-, -, finds, matched⟩ := matching?_finds threeModules sound_threeModules "/" "*/*.tf"
  obtain ⟨glob, read, described⟩ := matched plain
  obtain ⟨paths, found, ordered, distinct, members, reach⟩ := finds noFile glob read
  rw [parts] at described
  exact ⟨sound_threeModules, noFile, plain, glob, read,
    ⟨paths, found, ordered, distinct, members, reach,
    Option.some.inj (found.symm.trans answer)⟩, described⟩

/-- A folder with a hidden file that a rule keeps. -/
def keptName : FileTree :=
  .folder {} [(".ignore", .file { bytes := "!.shown.tf".toUTF8, mode := 0o644 }),
    (".shown.tf", emptyFile)]

/-- A folder with a file in it and another one in a folder that cannot be read. -/
def lockedFolder : FileTree :=
  .folder {} [("a.tf", emptyFile),
    ("lock", .folder { listable := false, enterable := false } [("b.tf", emptyFile)])]

/-- A search finds a hidden file that a rule keeps, and a root that is a file itself. It does not
find a file in a folder that cannot be read, though no rule leaves it out and nothing is hidden. -/
theorem matching?_keptName :
    (IgnoreScope.isHidden ".shown.tf" = true ∧ keptName.isFile (Path.join "/" "*") = false ∧
      keptName.matching? "/" "*" = some ["/.shown.tf"]) ∧
    (keptName.isFile (Path.join "/.shown.tf" "*") = false ∧
      keptName.matching? "/.shown.tf" "*" = some ["/.shown.tf"]) ∧
    ((lockedFolder.fileAt? ["lock", "b.tf"]).isSome = true ∧
      leavesOut (above lockedFolder ["lock"]) [] "lock" true = false ∧
      leavesOut (above lockedFolder ["lock", "b.tf"]) ["lock"] "b.tf" false = false ∧
      lockedFolder.matching? "/" "**/*.tf" = some ["/a.tf"]) := by
  decide +kernel

end FileTree

end TerraformPins
