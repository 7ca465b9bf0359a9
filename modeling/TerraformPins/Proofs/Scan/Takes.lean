import TerraformPins.Proofs.Scan.Replay

/-!
# Texts that are read wherever they stand

A text is taken by a reader if the reader takes all of it and leaves what is behind it, whatever
this is, as long as it ends the text. Texts that are put together of such texts are of this kind
again.

## Main definitions

* `Scan.Takes` — a reader takes a text in front of every rest of some kind

## Main results

* `Scan.Takes.bind`, `Scan.Takes.orElse` — sequence and choice
-/

namespace TerraformPins

/-- In front of every rest that satisfies `D`, the reader takes `w` and makes `a` of it. -/
def Scan.Takes {α : Type} (p : Scan α) (w : List Char) (a : α) (D : List Char → Prop) : Prop :=
  ∀ rest, D rest → p (w ++ rest) = some (a, rest)

namespace Scan.Takes

variable {α β : Type} {p q : Scan α} {f : α → Scan β} {u v w : List Char} {a : α} {b : β}
  {D E : List Char → Prop}

/-- What is replayed in front of every rest of some kind is taken there. -/
theorem of_replays {G : Gauge α} {R : List Char → List Char → Prop} {rest : List Char}
    (replays : ∀ n, Replays n 0 True G R p) (run : p (w ++ rest) = some (a, rest))
    (tight : weight w ≤ G.weight a) (sound : G.sound a)
    (related : ∀ rest', D rest' → R rest rest') : p.Takes w a D := by
  obtain ⟨w', split, replay⟩ := replays w.length _ _ _ run
  obtain rfl := List.append_cancel_right split
  obtain ⟨-, again⟩ := (replay (Nat.le_refl _)).2 (by simpa using tight) sound
  exact fun rest' ok => again rest' (related rest' ok)

/-- What is taken in front of more rests is taken in front of fewer. -/
theorem mono (h : p.Takes w a D) (weaker : ∀ rest, E rest → D rest) : p.Takes w a E :=
  fun rest ok => h rest (weaker rest ok)

/-- A sequence takes both texts, if the second one may stand behind the first. -/
theorem bind (front : p.Takes u a D) (back : (f a).Takes v b E)
    (meet : ∀ rest, E rest → D (v ++ rest)) : (p >>= f).Takes (u ++ v) b E := by
  intro rest ok
  rw [List.append_assoc, bind_of_eq_some (front _ (meet rest ok))]
  exact back rest ok

/-- A sequence that ends with a result made of what was read last. -/
theorem bind_pure {g : α → β} (front : p.Takes w a D) :
    (p >>= fun a => Pure.pure (g a)).Takes w (g a) D := by
  intro rest ok
  rw [bind_of_eq_some (front rest ok)]
  rfl

theorem exactly (lead : List Char) : (Scan.exactly lead).Takes lead lead D :=
  fun _ _ => exactly_append _ _

theorem exactly_bind {f : List Char → Scan β} {lead : List Char} (back : (f lead).Takes v b D) :
    (Scan.exactly lead >>= f).Takes (lead ++ v) b D :=
  (exactly (D := fun _ => True) lead).bind back fun _ _ => trivial

theorem orElse_left (h : p.Takes w a D) : (p <|> q).Takes w a D :=
  fun rest ok => orElse_of_eq_some (h rest ok)

/-- The second reader of a choice takes a text where the first one fails. -/
theorem orElse_right (h : q.Takes w a D) (fails : ∀ rest, D rest → p (w ++ rest) = none) :
    (p <|> q).Takes w a D := by
  intro rest ok
  rw [orElse_of_eq_none (fails rest ok)]
  exact h rest ok

theorem many_nil (fails : ∀ rest, D rest → p rest = none) : (Scan.many p).Takes [] [] D := by
  intro rest ok
  refine many_eq_some_of_chain (.nil fun x r taken => ?_)
  rw [List.nil_append, fails rest ok] at taken
  cases taken

/-- A repetition takes one more text in front. -/
theorem many_cons {as : List α} (first : p.Takes u a D) (nonempty : u ≠ [])
    (more : (Scan.many p).Takes v as E) (meet : ∀ rest, E rest → D (v ++ rest)) :
    (Scan.many p).Takes (u ++ v) (a :: as) E := by
  intro rest ok
  rw [List.append_assoc]
  refine many_eq_some_of_chain
    (.cons (first _ (meet rest ok)) ?_ (many_iff_chain.mp (more rest ok)))
  have positive := List.length_pos_iff.mpr nonempty
  simp only [List.length_append]
  omega

end Scan.Takes

end TerraformPins
