import TerraformPins.Proofs.Scan.Replay

/-!
# Readers that add nothing

The result of a reader, printed again, weighs at most as much as what was read. Where a whole text
is the text of what was read from it, nothing was dropped anywhere, and the parts of the text are
the texts of the parts.

## Main definitions

* `Light` — the result of a reader weighs no more than what it took

## Main results

* `eq_of_weight_eq` — two fronts of a text that weigh the same and end in a mark are equal
-/

namespace TerraformPins

open Scan

/-- The result of a reader weighs at most `credit` more than what it took. -/
def Light {α : Type} (credit : Nat) (G : α → Nat) (p : Scan α) : Prop :=
  ∀ cs a rest, p cs = some (a, rest) → ∃ w, cs = w ++ rest ∧ G a ≤ credit + weight w

/-- A reader whose results are read again makes them no heavier. -/
theorem Replays.light {α : Type} {G : Gauge α} {D : List Char → List Char → Prop} {p : Scan α}
    (h : ∀ n, Replays n 0 True G D p) : Light 0 G.weight p := by
  intro cs a rest run
  obtain ⟨w, split, replay⟩ := h cs.length cs a rest run
  refine ⟨w, split, (replay ?_).1⟩
  rw [split, List.length_append]
  exact Nat.le_add_right _ _

namespace Light

variable {α β : Type} {credit : Nat} {G : α → Nat} {H : β → Nat} {p q : Scan α} {f : α → Scan β}

theorem shortens (h : Light credit G p) : p.Shortens := by
  intro cs a rest run
  obtain ⟨w, split, -⟩ := h cs a rest run
  exact ⟨w, split⟩

theorem pure {a : α} (light : G a ≤ credit) : Light credit G (pure a) := by
  intro cs b rest run
  cases run
  exact ⟨[], rfl, light⟩

/-- What the first reader makes counts as taken for the second one. -/
theorem bind (front : Light 0 G p) (back : ∀ a, Light (credit + G a) H (f a)) :
    Light credit H (p >>= f) := by
  intro cs b rest run
  obtain ⟨a, t, first, second⟩ := bind_eq_some_iff.mp run
  obtain ⟨w, rfl, light⟩ := front cs a t first
  obtain ⟨w', rfl, light'⟩ := back a t b rest second
  refine ⟨w ++ w', by simp, ?_⟩
  rw [weight_append]
  omega

theorem orElse (first : Light credit G p) (second : Light credit G q) :
    Light credit G (p <|> q) := by
  intro cs a rest run
  rcases orElse_eq_some_iff.mp run with taken | ⟨-, taken⟩
  · exact first cs a rest taken
  · exact second cs a rest taken

theorem optional (h : Light 0 G p) : Light 0 (fun o => (o.map G).getD 0) (Scan.optional p) := by
  intro cs o rest run
  rcases optional_eq_some_iff.mp run with ⟨a, rfl, taken⟩ | ⟨rfl, -, rfl⟩
  · exact h cs a rest taken
  · exact ⟨[], rfl, Nat.zero_le _⟩

/-- What a repetition makes weighs no more than what all runs took. -/
theorem many (h : Light 0 G p) : Light 0 (total G) (Scan.many p) := by
  intro cs as rest run
  have chain := many_iff_chain.mp run
  clear run
  induction chain with
  | nil => exact ⟨[], rfl, Nat.zero_le _⟩
  | cons taken _ _ ih =>
    obtain ⟨w', rfl, light'⟩ := ih
    obtain ⟨w, rfl, light⟩ := h _ _ _ taken
    refine ⟨w ++ w', by simp, ?_⟩
    rw [total_cons, weight_append]
    omega

/-- A given text counts as taken for what is behind it. -/
theorem exactly_bind {f : List Char → Scan β} {lead : List Char}
    (back : Light (credit + weight lead) H (f lead)) :
    Light credit H (Scan.exactly lead >>= f) := by
  intro cs b rest run
  obtain ⟨t, rfl, more⟩ := exactly_bind_eq_some_iff.mp run
  obtain ⟨w, rfl, light⟩ := back t b rest more
  refine ⟨lead ++ w, by simp, ?_⟩
  rw [weight_append]
  omega

end Light

/-- A front of a text that weighs as much as a shorter one goes on with spaces. -/
theorem eq_of_weight_eq {u v x y : List Char} {c d : Char} (same : u ++ c :: x = v ++ d :: y)
    (weights : weight u + heft c = weight v + heft d) (mark : heft c ≠ 0) (markToo : heft d ≠ 0) :
    u = v ∧ c = d ∧ x = y := by
  have split := List.append_eq_append_iff.mp same
  rcases split with ⟨z, rfl, back⟩ | ⟨z, rfl, back⟩
  · cases z with
    | nil =>
      obtain ⟨rfl, rfl⟩ := List.cons.inj back
      exact ⟨(List.append_nil u).symm, rfl, rfl⟩
    | cons e z =>
      obtain ⟨rfl, -⟩ := List.cons.inj back
      simp only [weight_append, weight_cons] at weights
      omega
  · cases z with
    | nil =>
      obtain ⟨rfl, rfl⟩ := List.cons.inj back
      exact ⟨List.append_nil v, rfl, rfl⟩
    | cons e z =>
      obtain ⟨rfl, -⟩ := List.cons.inj back
      simp only [weight_append, weight_cons] at weights
      omega

end TerraformPins
