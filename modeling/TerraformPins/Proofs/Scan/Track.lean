import TerraformPins.Proofs.Scan.Replay

/-!
# Readers that agree on short texts

Two readers that are made in the same way from different readers agree on a text if those agree on
what they get to see. Behind something that was taken this is a shorter text, so that a recursion
whose depth is bounded does not depend on the bound.

## Main definitions

* `Tracks` — a reader does on short texts what another one does
-/

namespace TerraformPins

open Scan

/-- On texts of at most `n` characters `p` does what `q` does, and it does not touch the rest. -/
structure Tracks {α : Type} (n : Nat) (p q : Scan α) : Prop where
  shortens : p.Shortens
  agrees : ∀ cs : List Char, cs.length ≤ n → p cs = q cs

namespace Tracks

variable {α β : Type} {n : Nat} {p q p' q' : Scan α} {f g : α → Scan β}

theorem refl (h : p.Shortens) : Tracks n p p :=
  ⟨h, fun _ _ => rfl⟩

theorem mono {m : Nat} (h : Tracks n p q) (le : m ≤ n) : Tracks m p q :=
  ⟨h.shortens, fun cs short => h.agrees cs (by omega)⟩

/-- Sequences agree if both of their readers do. -/
theorem bind (front : Tracks n p q) (back : ∀ a, Tracks n (f a) (g a)) :
    Tracks n (p >>= f) (q >>= g) := by
  refine ⟨front.shortens.bind fun a => (back a).shortens, fun cs short => ?_⟩
  rw [bind_apply, bind_apply, ← front.agrees cs short]
  cases run : p cs with
  | none => rfl
  | some x =>
    obtain ⟨w, rfl⟩ := front.shortens cs x.1 x.2 run
    rw [List.length_append] at short
    exact (back x.1).agrees x.2 (by omega)

/-- A sequence whose front takes something. -/
theorem bind_next (front : p.Shortens) (advances : p.Advances)
    (back : ∀ a, Tracks n (f a) (g a)) : Tracks (n + 1) (p >>= f) (p >>= g) := by
  refine ⟨front.bind fun a => (back a).shortens, fun cs short => ?_⟩
  rw [bind_apply, bind_apply]
  cases run : p cs with
  | none => rfl
  | some x =>
    have shorter := advances cs x.1 x.2 run
    exact (back x.1).agrees x.2 (by omega)

/-- A reader that takes a character first leaves texts that are shorter by one, so nothing more has
to agree. -/
theorem exactly_bind {f g : List Char → Scan β} {c : Char} {lead : List Char}
    (back : Tracks n (f (c :: lead)) (g (c :: lead))) :
    Tracks (n + 1) (exactly (c :: lead) >>= f) (exactly (c :: lead) >>= g) := by
  have run : ∀ h : List Char → Scan β, ∀ cs, (exactly (c :: lead) >>= h) cs =
      (exactly (c :: lead) >>= fun _ => h (c :: lead)) cs := by
    intro h cs
    rw [bind_apply, bind_apply]
    cases taken : exactly (c :: lead) cs with
    | none => rfl
    | some x =>
      obtain ⟨same, -⟩ := exactly_eq_some_iff.mp taken
      simp only [Option.bind_some, same]
  have tracks : Tracks (n + 1) (exactly (c :: lead) >>= fun _ => f (c :: lead))
      (exactly (c :: lead) >>= fun _ => g (c :: lead)) :=
    bind_next (shortens_exactly _) (advances_exactly c lead) fun _ => back
  refine ⟨fun cs a t taken => tracks.shortens cs a t (run f cs ▸ taken), fun cs short => ?_⟩
  rw [run f, run g, tracks.agrees cs short]

/-- Choices agree if both of their readers do. -/
theorem orElse (first : Tracks n p q) (second : Tracks n p' q') :
    Tracks n (p <|> p') (q <|> q') := by
  refine ⟨first.shortens.orElse second.shortens, fun cs short => ?_⟩
  rw [orElse_apply, orElse_apply, first.agrees cs short, second.agrees cs short]

theorem map {h : α → β} (front : Tracks n p q) : Tracks n (h <$> p) (h <$> q) := by
  refine ⟨front.shortens.map, fun cs short => ?_⟩
  rw [map_apply, map_apply, front.agrees cs short]

theorem optional (h : Tracks n p q) : Tracks n (Scan.optional p) (Scan.optional q) := by
  refine ⟨h.shortens.optional, fun cs short => ?_⟩
  rw [Scan.optional, Scan.optional, h.agrees cs short]

/-- Repetitions agree, by induction on the length of the text. -/
theorem many (h : Tracks n p q) : Tracks n (Scan.many p) (Scan.many q) := by
  refine ⟨h.shortens.many, fun cs short => ?_⟩
  induction k : cs.length using Nat.strongRecOn generalizing cs with
  | ind k ih =>
    rw [many_eq, many_eq, ← h.agrees cs short]
    cases run : p cs with
    | none => rfl
    | some x =>
      simp only
      split
      case isTrue shorter => rw [ih x.2.length (by omega) x.2 (by omega) rfl]
      case isFalse => rfl

theorem pure (a : α) : Tracks n (pure a) (pure a) :=
  refl (shortens_pure a)

theorem exactly (lead : List Char) : Tracks n (Scan.exactly lead) (Scan.exactly lead) :=
  refl (shortens_exactly lead)

end Tracks

end TerraformPins
