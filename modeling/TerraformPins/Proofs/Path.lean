import TerraformPins.Discovery
import TerraformPins.Proofs.FileTree

/-!
# Paths of files

A path that is made from another one by adding proper names has the components of this one and
behind them the names. It reaches the place that lies these names below the place of the other path,
if there are no links on the way and all folders on the way can be entered.

## Main definitions

* `Path.IsName` — a proper name of a file or folder
* `Path.components` — the parts of a path that count
* `FileTree.Passable` — the folders on the way down from a place can be entered

## Main results

* `Path.components_pathBelow` — the components of a path below another one
* `FileTree.place_pathBelow` — the place that a path below another one reaches
-/

namespace TerraformPins

namespace Path

/-- A proper name of a file or folder. -/
structure IsName (name : String) : Prop where
  noSlash : '/' ∉ name.toList
  notIdle : isIdle name = false
  notUp : name ≠ ".."

instance (name : String) : Decidable (IsName name) :=
  decidable_of_iff ('/' ∉ name.toList ∧ isIdle name = false ∧ name ≠ "..")
    ⟨fun ⟨noSlash, notIdle, notUp⟩ => ⟨noSlash, notIdle, notUp⟩,
      fun h => ⟨h.noSlash, h.notIdle, h.notUp⟩⟩

/-- The parts of a path that count. -/
def components (path : String) : List String :=
  (parts path).filter fun part => !isIdle part

variable {folder name : String}

theorem IsName.not_isAbsolute (h : IsName name) : isAbsolute name = false := by
  rw [isAbsolute, Bool.eq_false_iff, Ne, List.isPrefixOf_iff_prefix]
  rintro ⟨more, split⟩
  exact h.noSlash (split ▸ List.mem_append_left more (List.mem_singleton_self _))

theorem IsName.parts_eq (h : IsName name) : parts name = [name] := by
  have none : ∀ c ∈ name.toList, (c == '/') = false := by
    intro c member
    rw [beq_eq_false_iff_ne]
    rintro rfl
    exact h.noSlash member
  rw [parts, splitAll_of_forall none, List.map_singleton, String.ofList_toList]

theorem parts_append_slash (front back : String) :
    parts (front ++ "/" ++ back) = parts front ++ parts back := by
  have cut : (front ++ "/" ++ back).toList = front.toList ++ '/' :: back.toList := by simp
  rw [parts, cut, splitAll_append_cons (by decide), List.map_append, parts, parts]

/-- A path with a name behind it: the parts are those of the path and the name, where the path does
not end with a slash. -/
theorem parts_join (h : IsName name) (folder : String) :
    (folder = "" ∧ parts (join folder name) = [name]) ∨
      parts (join folder name) = parts folder ++ [name] ∨
      ∃ front, parts folder = front ++ [""] ∧ parts (join folder name) = front ++ [name] := by
  rw [join, if_neg (by rw [h.not_isAbsolute]; decide)]
  by_cases empty : folder = ""
  · subst empty
    exact .inl ⟨rfl, h.parts_eq⟩
  · by_cases ends : ['/'].isSuffixOf folder.toList = true
    · obtain ⟨front, split⟩ := List.isSuffixOf_iff_suffix.mp ends
      have same : folder = String.ofList front ++ "/" := by
        rw [← String.toList_inj]
        simp [← split]
      refine .inr (.inr ⟨parts (String.ofList front), ?_, ?_⟩)
      · rw [same, ← String.append_empty (s := String.ofList front ++ "/"), parts_append_slash]
        rfl
      · rw [if_pos (by simp [ends]), same, parts_append_slash, h.parts_eq]
    · rw [if_neg (by simp [empty, ends])]
      exact .inr (.inl (by rw [parts_append_slash, h.parts_eq]))

/-- A name behind a path is one more component. -/
theorem components_join (h : IsName name) (folder : String) :
    components (join folder name) = components folder ++ [name] := by
  have single : [name].filter (fun part => !isIdle part) = [name] := by
    rw [List.filter_cons_of_pos (by rw [h.notIdle]; rfl), List.filter_nil]
  have idle : [""].filter (fun part => !isIdle part) = [] := by decide
  unfold components
  rcases parts_join h folder with ⟨rfl, same⟩ | same | ⟨front, last, same⟩
  · rw [same, show parts "" = [""] by decide, single, idle, List.nil_append]
  · rw [same, List.filter_append, single]
  · rw [same, last, List.filter_append, List.filter_append, single, idle, List.append_nil]

theorem join_ne_empty (h : IsName name) (folder : String) : join folder name ≠ "" := by
  intro empty
  have last := components_join h folder
  rw [empty, show components "" = [] by decide] at last
  exact List.cons_ne_nil _ _ (List.append_eq_nil_iff.mp last.symm).2

/-- The components of a path below another one. -/
theorem components_pathBelow {names : List String} (named : ∀ name ∈ names, IsName name)
    (root : String) : components (FileTree.pathBelow root names) = components root ++ names := by
  induction names generalizing root with
  | nil => simp [FileTree.pathBelow]
  | cons name names ih =>
    obtain ⟨here, below⟩ := List.forall_mem_cons.mp named
    show components (FileTree.pathBelow (join root name) names) = _
    rw [ih below, components_join here, List.append_assoc, List.singleton_append]

end Path

namespace FileTree

variable {t : FileTree}

/-! ### Places below a place -/

theorem get?_append (t : FileTree) (place names : Location) :
    t.get? (place ++ names) = (t.get? place).bind fun part => part.get? names := by
  induction place generalizing t with
  | nil => simp
  | cons name place ih =>
    cases t with
    | folder access entries =>
      rw [List.cons_append, get?, get?]
      cases entries.lookup name with
      | none => rfl
      | some part => exact ih part
    | file => rfl
    | link => rfl

theorem isFolderAt_of_canEnter {place : Location} (enterable : t.canEnter place = true) :
    t.isFolderAt place = true := by
  unfold canEnter at enterable
  unfold isFolderAt
  split at enterable <;> simp_all

/-- All folders on the way down from a place by some names can be entered. -/
def Passable (t : FileTree) (place names : Location) : Prop :=
  ∀ front name back, names = front ++ name :: back → t.canEnter (place ++ front) = true

theorem passable_nil (t : FileTree) (place : Location) : t.Passable place [] := by
  rintro front name back split
  simp at split

/-- The way down by a first name and others leads through the place and on from the entry there. -/
theorem passable_cons {place names : Location} {name : String} :
    t.Passable place (name :: names) ↔
      t.canEnter place = true ∧ t.Passable (place ++ [name]) names := by
  constructor
  · intro passable
    refine ⟨by simpa using passable [] name names rfl, fun front last back split => ?_⟩
    rw [List.append_assoc, List.singleton_append]
    exact passable (name :: front) last back (by rw [split, List.cons_append])
  · rintro ⟨here, below⟩ front last back split
    cases front with
    | nil => rwa [List.append_nil]
    | cons first front =>
      obtain ⟨rfl, rest⟩ := List.cons.inj split
      rw [← List.singleton_append, ← List.append_assoc]
      exact below front last back rest

/-- A path is followed through its front first. -/
theorem follow_append (t : FileTree) (place : Location) (front back : List String) :
    t.follow place (front ++ back) =
      match t.follow place front with
      | .reached there => t.follow there back
      | .failed fault => .failed fault
      | .atLink here target rest => .atLink here target (rest ++ back) := by
  induction front generalizing place with
  | nil => rfl
  | cons part front ih =>
    rw [List.cons_append, follow, follow]
    split_ifs
    · rfl
    · rfl
    · exact ih place
    · exact ih place.dropLast
    · cases t.get? (place ++ [part]) with
      | none => rfl
      | some found =>
        cases found with
        | link => rfl
        | file => exact ih _
        | folder => exact ih _

section Lookup

variable {links : Nat} {place there : Location} {front back : List String}

theorem locateParts_of_reached (followed : t.follow place front = .reached there) :
    t.locateParts links place front = .ok there := by
  cases links <;> rw [locateParts, followed]

theorem locateParts_of_failed {fault : IoFault} (followed : t.follow place front = .failed fault) :
    t.locateParts links place front = .error fault := by
  cases links <;> rw [locateParts, followed]

/-- A lookup depends only on where following the path comes to a stop. -/
theorem locateParts_congr (same : t.follow place front = t.follow there back) :
    t.locateParts links place front = t.locateParts links there back := by
  cases links <;> rw [locateParts, locateParts, same]

/-- A lookup goes through the front of a path first. It fails there, or it goes on from there with
the links that are left. -/
theorem locateParts_append (t : FileTree) (links : Nat) (place : Location)
    (front back : List String) : (∃ fault, t.locateParts links place front = .error fault ∧
      t.locateParts links place (front ++ back) = .error fault) ∨
    ∃ there left, t.locateParts links place front = .ok there ∧
      t.locateParts links place (front ++ back) = t.locateParts left there back := by
  induction links generalizing place front with
  | zero =>
    have whole := follow_append t place front back
    cases followed : t.follow place front with
    | reached there =>
      rw [followed] at whole
      exact .inr ⟨there, 0, locateParts_of_reached followed, locateParts_congr whole⟩
    | failed fault =>
      rw [followed] at whole
      exact .inl ⟨fault, locateParts_of_failed followed, locateParts_of_failed whole⟩
    | atLink here target rest =>
      rw [followed] at whole
      exact .inl ⟨.tooManyLinks, by rw [locateParts, followed], by rw [locateParts, whole]⟩
  | succ links ih =>
    have whole := follow_append t place front back
    cases followed : t.follow place front with
    | reached there =>
      rw [followed] at whole
      exact .inr ⟨there, links + 1, locateParts_of_reached followed, locateParts_congr whole⟩
    | failed fault =>
      rw [followed] at whole
      exact .inl ⟨fault, locateParts_of_failed followed, locateParts_of_failed whole⟩
    | atLink here target rest =>
      -- Behind a link the rest of the front is followed from its target.
      rw [followed] at whole
      have further := ih (startOf here target) (Path.parts target ++ rest)
      rw [List.append_assoc] at further
      rw [locateParts, locateParts, followed, whole]
      exact further

/-- Where nothing on the way is a link, a lookup goes down by the name. -/
theorem locateParts_name {name : String} (isName : Path.IsName name)
    (enterable : t.canEnter place = true) (found : t.get? (place ++ [name]) ≠ none)
    (noLink : ∀ target, t.get? (place ++ [name]) ≠ some (.link target)) :
    t.locateParts links place [name] = .ok (place ++ [name]) := by
  apply locateParts_of_reached
  rw [follow, isFolderAt_of_canEnter enterable, enterable, isName.notIdle]
  simp only [Bool.not_true, Bool.and_false, Bool.false_eq_true, if_false, isName.notUp]
  cases here : t.get? (place ++ [name]) with
  | none => exact absurd here found
  | some part =>
    cases part with
    | link target => exact absurd here (noLink target)
    | file => rfl
    | folder => rfl

/-- An empty part leaves a lookup where it is. -/
theorem eq_of_locateParts_empty (reached : t.locateParts links there [""] = .ok place) :
    there = place := by
  by_cases isFolder : t.isFolderAt there = true
  · have followed : t.follow there [""] = .reached there := by
      rw [follow, isFolder]
      rfl
    exact Except.ok.inj ((locateParts_of_reached followed).symm.trans reached)
  · have followed : t.follow there [""] = .failed .notAFolder := by
      rw [follow, if_pos (by simpa using isFolder)]
    rw [locateParts_of_failed followed] at reached
    cases reached

/-- The place of a name below a path. -/
theorem place_join {root name : String} (reached : t.place root = .ok place)
    (isName : Path.IsName name) (enterable : t.canEnter place = true)
    (found : t.get? (place ++ [name]) ≠ none)
    (noLink : ∀ target, t.get? (place ++ [name]) ≠ some (.link target)) :
    t.place (Path.join root name) = .ok (place ++ [name]) := by
  have below (left : Nat) := @locateParts_name t left place name isName enterable found noLink
  unfold FileTree.place locate startOf at reached ⊢
  by_cases empty : root = ""
  · simp [empty] at reached
  · rw [if_neg (by simpa using empty), ite_self] at reached
    rw [if_neg (by simpa using Path.join_ne_empty isName root), ite_self]
    -- The name is one part more than those of the path, or stands in place of an empty last one.
    rcases Path.parts_join isName root with ⟨rfl, -⟩ | same | ⟨front, last, same⟩
    · exact absurd rfl empty
    · rw [same]
      rcases locateParts_append t linkLimit [] (Path.parts root) [name] with
        ⟨fault, failed, -⟩ | ⟨there, left, passed, whole⟩
      · rw [failed] at reached
        cases reached
      · obtain rfl : there = place := Except.ok.inj (passed.symm.trans reached)
        rw [whole, below]
    · rw [same]
      rw [last] at reached
      rcases locateParts_append t linkLimit [] front [""] with
        ⟨fault, -, failed⟩ | ⟨there, left, passed, whole⟩
      · rw [failed] at reached
        cases reached
      · obtain rfl := eq_of_locateParts_empty (whole.symm.trans reached)
        rcases locateParts_append t linkLimit [] front [name] with
          ⟨fault, failed, -⟩ | ⟨other, left, goes, named⟩
        · rw [failed] at passed
          cases passed
        · obtain rfl : other = there := Except.ok.inj (goes.symm.trans passed)
          rw [named, below]

/-- The place of a file below a path, if its names are proper and the folders on the way can be
entered. -/
theorem place_pathBelow {root : String} {names : Location} (reached : t.place root = .ok place)
    (named : ∀ name ∈ names, Path.IsName name) (passable : t.Passable place names)
    (found : t.fileAt? (place ++ names) ≠ none) :
    t.place (pathBelow root names) = .ok (place ++ names) := by
  induction names generalizing root place with
  | nil => simpa [pathBelow] using reached
  | cons name names ih =>
    obtain ⟨here, below⟩ := List.forall_mem_cons.mp named
    obtain ⟨enterable, further⟩ := passable_cons.mp passable
    have there : t.get? (place ++ name :: names) ≠ none := by
      intro none
      exact found (by rw [fileAt?, none])
    have inside : t.get? (place ++ [name]) ≠ none := by
      rw [← List.singleton_append, ← List.append_assoc, get?_append] at there
      intro none
      exact there (by rw [none, Option.bind_none])
    have noLink (target : String) : t.get? (place ++ [name]) ≠ some (.link target) := by
      intro isLink
      apply found
      have next : t.get? (place ++ name :: names) = (FileTree.link target).get? names := by
        rw [← List.singleton_append, ← List.append_assoc, get?_append, isLink, Option.bind_some]
      rw [fileAt?, next]
      cases names <;> rfl
    -- One step of the path reaches what it names, because this is neither missing nor a link.
    have step := place_join reached here enterable inside noLink
    have rest := ih step below further (by rwa [List.append_assoc])
    rwa [List.append_assoc] at rest

end Lookup

end FileTree

end TerraformPins
