import Mathlib.Data.List.TakeWhile
import TerraformPins.Text

/-!
# Cutting and joining text

A text that is cut at a character is joined again with it, and what was put in front of a text can
be stripped from it. A text of which nothing is left when its ends are cut off has only members that
are cut off.

## Main results

* `stripFront?_eq_some_iff` — what is left behind a stripped front
* `splitAll_append_cons`, `exists_splitAll_of_mem` — where a list is cut
* `trimWhile_eq_nil_iff` — what is cut off as a whole
* `exists_cut_trimWhile`, `trimWhile_ends` — what is cut off and what is left
* `length_eraseDups_iff` — a list of which nothing is left out when its doubles are
* `joinWith_splitAll` — joining the pieces of a text
-/

namespace TerraformPins

variable {α : Type} [BEq α] [LawfulBEq α]

theorem stripFront?_append (lead rest : List α) : stripFront? lead (lead ++ rest) = some rest := by
  induction lead with
  | nil => rfl
  | cons c lead ih => simpa [stripFront?] using ih

theorem stripFront?_eq_some_iff {lead cs rest : List α} :
    stripFront? lead cs = some rest ↔ cs = lead ++ rest := by
  constructor
  · intro h
    induction lead generalizing cs with
    | nil => simpa [stripFront?] using h
    | cons c lead ih =>
      cases cs with
      | nil => cases h
      | cons d cs =>
        rw [stripFront?] at h
        split at h
        case isTrue same =>
          obtain rfl := beq_iff_eq.mp same
          rw [ih h]
          rfl
        case isFalse => cases h
  · rintro rfl
    exact stripFront?_append lead rest

omit [BEq α] [LawfulBEq α] in
theorem splitAll_ne_nil (p : α → Bool) (xs : List α) : splitAll p xs ≠ [] := by
  cases xs with
  | nil => simp [splitAll]
  | cons x xs =>
    unfold splitAll
    split
    · simp
    · split <;> simp

omit [BEq α] [LawfulBEq α] in
/-- A list without members that satisfy `p` is not cut. -/
theorem splitAll_of_forall {p : α → Bool} {xs : List α} (none : ∀ x ∈ xs, p x = false) :
    splitAll p xs = [xs] := by
  induction xs with
  | nil => rfl
  | cons x xs ih =>
    obtain ⟨here, later⟩ := List.forall_mem_cons.mp none
    rw [splitAll, ih later]
    simp [here]

/-- A list is not cut at what is no member of it. -/
theorem splitAll_of_not_mem {x : α} {xs : List α} (h : x ∉ xs) : splitAll (· == x) xs = [xs] := by
  refine splitAll_of_forall fun y member => ?_
  rw [beq_eq_false_iff_ne]
  rintro rfl
  exact h member

omit [BEq α] [LawfulBEq α] in
/-- A list is cut at each member that satisfies `p`, so it can be cut on both sides of one. -/
theorem splitAll_append_cons {p : α → Bool} {x : α} (cut : p x = true) (xs ys : List α) :
    splitAll p (xs ++ x :: ys) = splitAll p xs ++ splitAll p ys := by
  induction xs with
  | nil =>
    obtain ⟨piece, pieces, split⟩ := List.exists_cons_of_ne_nil (splitAll_ne_nil p ys)
    simp [splitAll, split, cut]
  | cons y xs ih =>
    obtain ⟨piece, pieces, split⟩ := List.exists_cons_of_ne_nil (splitAll_ne_nil p xs)
    rw [List.cons_append, splitAll, splitAll, ih, split]
    by_cases here : p y = true <;> simp [here]

omit [BEq α] [LawfulBEq α] in
/-- The pieces of a list consist of its members that are not cut at. -/
theorem mem_of_mem_splitAll {p : α → Bool} {x : α} {piece xs : List α}
    (member : piece ∈ splitAll p xs) (inside : x ∈ piece) : x ∈ xs ∧ p x = false := by
  induction xs generalizing piece with
  | nil => simp_all [splitAll]
  | cons y ys ih =>
    obtain ⟨first, more, split⟩ := List.exists_cons_of_ne_nil (splitAll_ne_nil p ys)
    rw [splitAll, split] at member
    rw [split] at ih
    have later {piece : List α} (member : piece ∈ first :: more) (inside : x ∈ piece) :
        x ∈ y :: ys ∧ p x = false :=
      (ih member inside).imp_left (List.mem_cons_of_mem y)
    by_cases cut : p y = true
    · simp only [cut, if_true] at member
      rcases List.mem_cons.mp member with rfl | member
      · exact absurd inside List.not_mem_nil
      · exact later member inside
    · simp only [cut] at member
      rcases List.mem_cons.mp member with rfl | member
      · rcases List.mem_cons.mp inside with rfl | inside
        · exact ⟨List.mem_cons_self, by simpa using cut⟩
        · exact later List.mem_cons_self inside
      · exact later (List.mem_cons_of_mem first member) inside

omit [BEq α] [LawfulBEq α] in
/-- A list with a member that satisfies `p` is cut into two pieces at least. -/
theorem exists_splitAll_of_mem {p : α → Bool} {x : α} {xs : List α} (member : x ∈ xs)
    (cut : p x = true) : ∃ first next more, splitAll p xs = first :: next :: more := by
  obtain ⟨front, back, rfl⟩ := List.append_of_mem member
  obtain ⟨first, more, before⟩ := List.exists_cons_of_ne_nil (splitAll_ne_nil p front)
  obtain ⟨piece, pieces, behind⟩ := List.exists_cons_of_ne_nil (splitAll_ne_nil p back)
  rw [splitAll_append_cons cut, before, behind]
  -- The pieces in front of the member end before those behind it begin.
  cases more with
  | nil => exact ⟨first, piece, pieces, rfl⟩
  | cons next more => exact ⟨first, next, more ++ piece :: pieces, rfl⟩

omit [BEq α] [LawfulBEq α] in
theorem dropEndWhile_eq_nil_iff {p : α → Bool} {xs : List α} :
    dropEndWhile p xs = [] ↔ ∀ x ∈ xs, p x = true := by
  rw [dropEndWhile, List.reverse_eq_nil_iff, List.dropWhile_eq_nil_iff]
  simp

omit [BEq α] [LawfulBEq α] in
theorem trimWhile_eq_nil_iff {p : α → Bool} {xs : List α} :
    trimWhile p xs = [] ↔ ∀ x ∈ xs, p x = true := by
  rw [trimWhile, dropEndWhile_eq_nil_iff]
  constructor
  · intro all
    have nothing : xs.dropWhile p = [] := by
      cases rest : xs.dropWhile p with
      | nil => rfl
      | cons x rest' =>
        have first := List.head?_dropWhile_not p xs
        rw [rest] at first all
        simp [all x List.mem_cons_self] at first
    exact List.dropWhile_eq_nil_iff.mp nothing
  · intro all x member
    exact all x ((List.dropWhile_suffix p).subset member)

omit [BEq α] [LawfulBEq α] in
/-- What is left of a list without the members at its ends that satisfy `p`, and what is cut off. -/
theorem exists_cut_trimWhile (p : α → Bool) (xs : List α) :
    ∃ front back, (∀ x ∈ front ++ back, p x = true) ∧ xs = front ++ trimWhile p xs ++ back := by
  let rest := xs.dropWhile p
  refine ⟨xs.takeWhile p, (rest.reverse.takeWhile p).reverse, ?_, ?_⟩
  · intro x member
    rcases List.mem_append.mp member with front | back
    · exact List.mem_takeWhile_imp front
    · exact List.mem_takeWhile_imp (List.mem_reverse.mp back)
  · have behind : rest = trimWhile p xs ++ (rest.reverse.takeWhile p).reverse := by
      rw [trimWhile, dropEndWhile, ← List.reverse_append, List.takeWhile_append_dropWhile,
        List.reverse_reverse]
    rw [List.append_assoc, ← behind]
    exact List.takeWhile_append_dropWhile.symm

omit [BEq α] [LawfulBEq α] in
/-- The first and the last member that are left do not satisfy `p`. -/
theorem trimWhile_ends (p : α → Bool) (xs : List α) :
    (∀ x, (trimWhile p xs).head? = some x → p x = false) ∧
      ∀ x, (trimWhile p xs).getLast? = some x → p x = false := by
  have first (ys : List α) (x : α) (head : (ys.dropWhile p).head? = some x) : p x = false := by
    have outside := List.head?_dropWhile_not p ys
    rw [head] at outside
    simpa using outside
  constructor
  · intro x head
    -- Cutting at the end leaves the first member where it is, unless nothing is left.
    have front : trimWhile p xs <+: xs.dropWhile p := by
      rw [trimWhile, dropEndWhile, ← List.reverse_suffix, List.reverse_reverse]
      exact List.dropWhile_suffix p
    apply first xs
    obtain ⟨more, split⟩ := front
    rw [← split, List.head?_append, head, Option.some_or]
  · intro x last
    rw [trimWhile, dropEndWhile, List.getLast?_reverse] at last
    exact first _ x last

omit [LawfulBEq α] in
theorem length_eraseDups_le (keys : List α) : keys.eraseDups.length ≤ keys.length := by
  induction size : keys.length using Nat.strongRecOn generalizing keys with
  | ind n ih =>
  cases keys with
  | nil => simp
  | cons k rest =>
    subst size
    have fewer := List.length_filter_le (fun x => !x == k) rest
    have short := ih _ (Nat.lt_succ_of_le fewer) (rest.filter fun x => !x == k) rfl
    rw [List.eraseDups_cons, List.length_cons, List.length_cons]
    omega

theorem length_eraseDups_iff (keys : List α) :
    keys.eraseDups.length = keys.length ↔ keys.Nodup := by
  induction keys with
  | nil => simp
  | cons k rest ih =>
    rw [List.eraseDups_cons, List.length_cons, List.length_cons, List.nodup_cons, ← ih]
    have fewer := List.length_filter_le (fun x => !x == k) rest
    have short := length_eraseDups_le (rest.filter fun x => !x == k)
    constructor
    · intro same
      have kept : rest.filter (fun x => !x == k) = rest :=
        List.filter_eq_self.mpr (List.length_filter_eq_length_iff.mp (by omega))
      rw [kept] at same
      exact ⟨fun member => by simpa using List.filter_eq_self.mp kept k member, by omega⟩
    · rintro ⟨new, same⟩
      have kept : rest.filter (fun x => !x == k) = rest := by
        refine List.filter_eq_self.mpr fun x member => ?_
        rw [Bool.not_eq_true', beq_eq_false_iff_ne]
        rintro rfl
        exact new member
      rw [kept, same]

/-- Cutting at a character and joining with it gives back the text. -/
theorem joinWith_splitAll (c : Char) (cs : List Char) :
    joinWith [c] (splitAll (· == c) cs) = cs := by
  induction cs with
  | nil => rfl
  | cons x xs ih =>
    unfold splitAll
    cases h : splitAll (· == c) xs with
    | nil =>
      rw [h] at ih
      simp [joinWith] at ih ⊢
      exact ih
    | cons piece pieces =>
      rw [h] at ih
      by_cases hx : x = c
      · subst hx
        simp [joinWith, ih]
      · simp only [beq_iff_eq, hx, if_false]
        cases pieces with
        | nil => simpa [joinWith] using ih
        | cons y ys => simpa [joinWith] using ih

end TerraformPins
