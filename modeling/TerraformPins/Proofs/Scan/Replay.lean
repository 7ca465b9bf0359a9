import TerraformPins.Proofs.Scan

/-!
# Replaying a run

A reader looks at more than it takes: it looks at what comes next to know where to stop. `Replays`
says how much of this matters. Whatever a reader takes from the front of a text, it takes from every
other text that begins the same way, makes the same of it, and leaves the rest, as long as the two
rests are related. The relation is small near the leaves, as for a word, which must not go on, and
disappears where a closing mark is taken.

The same run also gives a bound for the text of what was read. Text is weighed with a space as
nothing, since the spaces in front of lines are not always those that were read, and with a control
character as more than its escape. Only runs whose result weighs as much as what was taken are
replayed: nothing was dropped there.

A reader made of a sequence is treated from the front to the back. What its front has read is
carried along as a credit, a weight that the result may have on top of what is still to be taken,
and as a claim, something about the front that the result has to imply.

## Main definitions

* `weight` — the weight of a text
* `Gauge` — the weight of a result, and whether it is sound
* `Scan.Leads` — a reader that needs a first character of some kind
* `Replays` — what a reader takes, it takes again

## Main results

* `Replays.bind`, `Replays.orElse`, `Replays.optional`, `Replays.many` — sequence, choice and
  repetition
-/

namespace TerraformPins

/-- The weight of a character. -/
def heft (c : Char) : Nat :=
  if c = ' ' then 0 else if c.toNat < 0x20 ∨ c.toNat = 0x7f then 8 else 1

/-- The sum of `f` over a list. -/
def total {α : Type} (f : α → Nat) : List α → Nat
  | [] => 0
  | x :: xs => f x + total f xs

@[simp] theorem total_nil {α : Type} (f : α → Nat) : total f [] = 0 := rfl

@[simp] theorem total_cons {α : Type} (f : α → Nat) (x : α) (xs : List α) :
    total f (x :: xs) = f x + total f xs := rfl

@[simp] theorem total_append {α : Type} (f : α → Nat) (xs ys : List α) :
    total f (xs ++ ys) = total f xs + total f ys := by
  induction xs with
  | nil => simp
  | cons x xs ih => simp [ih, Nat.add_assoc]

/-- A member of a list counts no more than all members together. -/
theorem le_total {α : Type} {f : α → Nat} {x : α} {xs : List α} (member : x ∈ xs) :
    f x ≤ total f xs := by
  induction xs with
  | nil => cases member
  | cons y ys ih =>
    rw [total_cons]
    rcases List.mem_cons.mp member with rfl | inside
    · exact Nat.le_add_right _ _
    · exact Nat.le_trans (ih inside) (Nat.le_add_left _ _)

/-- The weight of a text. -/
def weight (cs : List Char) : Nat :=
  total heft cs

@[simp] theorem weight_nil : weight [] = 0 := rfl

@[simp] theorem weight_cons (c : Char) (cs : List Char) :
    weight (c :: cs) = heft c + weight cs := by
  simp [weight]

@[simp] theorem weight_append (xs ys : List Char) : weight (xs ++ ys) = weight xs + weight ys := by
  simp [weight]

/-- The weight of a result, and whether it is sound. -/
structure Gauge (α : Type) where
  weight : α → Nat
  sound : α → Prop

namespace Gauge

variable {α : Type}

/-- The gauge of a text that was taken as it is. -/
def text : Gauge (List Char) := ⟨TerraformPins.weight, fun _ => True⟩

/-- The gauge of a fixed text that is not part of the result. -/
def fixed (lead : List Char) : Gauge α := ⟨fun _ => TerraformPins.weight lead, fun _ => True⟩

/-- The gauge of a result that may be missing. -/
def option (G : Gauge α) : Gauge (Option α) where
  weight o := (o.map G.weight).getD 0
  sound o := ∀ a, o = some a → G.sound a

/-- The gauge of a list of results. -/
def list (G : Gauge α) : Gauge (List α) where
  weight as := total G.weight as
  sound as := ∀ a ∈ as, G.sound a

end Gauge

/-- A reader that takes something from the front, or nothing, and does not touch the rest. -/
def Scan.Shortens {α : Type} (p : Scan α) : Prop :=
  ∀ cs a rest, p cs = some (a, rest) → ∃ w, cs = w ++ rest

/-- A reader that takes something if it succeeds. -/
def Scan.Advances {α : Type} (p : Scan α) : Prop :=
  ∀ cs a rest, p cs = some (a, rest) → rest.length < cs.length

/-- A reader that takes two characters or more if it succeeds. -/
def Scan.AdvancesTwice {α : Type} (p : Scan α) : Prop :=
  ∀ cs a rest, p cs = some (a, rest) → rest.length + 2 ≤ cs.length

/-- A reader that succeeds only in front of a character satisfying `f`. -/
def Scan.Leads {α : Type} (f : Char → Bool) (p : Scan α) : Prop :=
  ∀ cs x, p cs = some x → ∃ c t, f c = true ∧ cs = c :: t

/-- What `p` takes, it takes again in front of a rest that is related by `D`, if it is at most `n`
characters long. The result weighs at most `credit` more than what was taken. If it does weigh that
much and is sound, the claim holds. -/
def Replays {α : Type} (n : Nat) (credit : Nat) (claim : Prop) (G : Gauge α)
    (D : List Char → List Char → Prop) (p : Scan α) : Prop :=
  ∀ cs a rest, p cs = some (a, rest) → ∃ w, cs = w ++ rest ∧ (w.length ≤ n →
    G.weight a ≤ credit + weight w ∧
      (credit + weight w ≤ G.weight a → G.sound a → claim ∧
        ∀ rest', D rest rest' → p (w ++ rest') = some (a, rest')))

namespace Scan

variable {α β : Type} {p q : Scan α} {f : Char → Bool}

theorem shortens_pure (a : α) : (pure a : Scan α).Shortens := by
  rintro cs b rest run
  cases run
  exact ⟨[], rfl⟩

theorem Shortens.bind {g : α → Scan β} (h : p.Shortens) (tail : ∀ a, (g a).Shortens) :
    (p >>= g).Shortens := by
  intro cs b rest run
  obtain ⟨a, t, first, second⟩ := bind_eq_some_iff.mp run
  obtain ⟨w, rfl⟩ := h cs a t first
  obtain ⟨w', rfl⟩ := tail a t b rest second
  exact ⟨w ++ w', by simp⟩

theorem Shortens.orElse (h : p.Shortens) (h' : q.Shortens) : (p <|> q).Shortens := by
  intro cs a rest run
  rcases orElse_eq_some_iff.mp run with first | ⟨-, second⟩
  · exact h cs a rest first
  · exact h' cs a rest second

theorem Shortens.map {g : α → β} (h : p.Shortens) : (g <$> p).Shortens := by
  intro cs b rest run
  rw [map_apply, Option.map_eq_some_iff] at run
  obtain ⟨⟨a, t⟩, taken, same⟩ := run
  cases same
  exact h cs a t taken

theorem Shortens.optional (h : p.Shortens) : (Scan.optional p).Shortens := by
  intro cs o rest run
  rcases optional_eq_some_iff.mp run with ⟨a, -, taken⟩ | ⟨-, -, rfl⟩
  · exact h cs a rest taken
  · exact ⟨[], rfl⟩

/-- A repetition leaves a part of the text, if each of its runs does. -/
theorem Shortens.many (h : p.Shortens) : (Scan.many p).Shortens := by
  intro cs as rest run
  have chain := many_iff_chain.mp run
  clear run
  induction chain with
  | nil => exact ⟨[], rfl⟩
  | cons taken _ _ ih =>
    obtain ⟨w', rfl⟩ := ih
    obtain ⟨w, rfl⟩ := h _ _ _ taken
    exact ⟨w ++ w', by simp⟩

theorem shortens_exactly (lead : List Char) : (exactly lead).Shortens := by
  intro cs a rest run
  obtain ⟨rfl, rfl⟩ := exactly_eq_some_iff.mp run
  exact ⟨a, rfl⟩

theorem shortens_run (f : Char → Bool) : (run f).Shortens := by
  intro cs a rest run
  exact ⟨a, (run_eq_some_iff.mp run).1⟩

theorem Advances.bind {g : α → Scan β} (h : p.Advances) (tail : ∀ a, (g a).Shortens) :
    (p >>= g).Advances := by
  intro cs b rest run
  obtain ⟨a, t, first, second⟩ := bind_eq_some_iff.mp run
  have shorter := h cs a t first
  obtain ⟨w, rfl⟩ := tail a t b rest second
  rw [List.length_append] at shorter
  omega

theorem Shortens.bind_advances {g : α → Scan β} (h : p.Shortens) (tail : ∀ a, (g a).Advances) :
    (p >>= g).Advances := by
  intro cs b rest run
  obtain ⟨a, t, first, second⟩ := bind_eq_some_iff.mp run
  obtain ⟨w, rfl⟩ := h cs a t first
  have shorter := tail a t b rest second
  rw [List.length_append]
  omega

/-- Two readers that take a character each take two. -/
theorem Advances.bind_advances {g : α → Scan β} (h : p.Advances) (tail : ∀ a, (g a).Advances) :
    AdvancesTwice (p >>= g) := by
  intro cs b rest run
  obtain ⟨a, t, first, second⟩ := bind_eq_some_iff.mp run
  have shorter := h cs a t first
  have shorterYet := tail a t b rest second
  omega

theorem AdvancesTwice.orElse (h : p.AdvancesTwice) (h' : q.AdvancesTwice) :
    (p <|> q).AdvancesTwice := by
  intro cs a rest run
  rcases orElse_eq_some_iff.mp run with first | ⟨-, second⟩
  · exact h cs a rest first
  · exact h' cs a rest second

/-- Two characters are taken together if the second reader takes them. -/
theorem Shortens.bind_twice {g : α → Scan β} (h : p.Shortens) (tail : ∀ a, (g a).AdvancesTwice) :
    (p >>= g).AdvancesTwice := by
  intro cs b rest run
  obtain ⟨a, t, first, second⟩ := bind_eq_some_iff.mp run
  obtain ⟨w, rfl⟩ := h cs a t first
  have shorter := tail a t b rest second
  rw [List.length_append]
  omega

theorem AdvancesTwice.advances (h : p.AdvancesTwice) : p.Advances := by
  intro cs a rest run
  have shorter := h cs a rest run
  omega

theorem Advances.orElse (h : p.Advances) (h' : q.Advances) : (p <|> q).Advances := by
  intro cs a rest run
  rcases orElse_eq_some_iff.mp run with first | ⟨-, second⟩
  · exact h cs a rest first
  · exact h' cs a rest second

theorem Advances.map {g : α → β} (h : p.Advances) : (g <$> p).Advances := by
  intro cs b rest run
  rw [map_apply, Option.map_eq_some_iff] at run
  obtain ⟨⟨a, t⟩, taken, same⟩ := run
  cases same
  exact h cs a t taken

theorem advances_exactly (c : Char) (lead : List Char) : (exactly (c :: lead)).Advances := by
  intro cs a rest run
  obtain ⟨-, rfl⟩ := exactly_eq_some_iff.mp run
  simp only [List.length_append, List.length_cons]
  omega

theorem advances_one (f : Char → Bool) : (one f).Advances := by
  intro cs a rest run
  obtain ⟨-, rfl⟩ := one_eq_some_iff.mp run
  simp

theorem shortens_run1 (f : Char → Bool) : (run1 f).Shortens := by
  intro cs a rest run
  exact ⟨a, (run1_eq_some_iff.mp run).2.1⟩

theorem Leads.mono {g : Char → Bool} (h : Leads f p) (weaker : ∀ c, f c = true → g c = true) :
    Leads g p := by
  intro cs x run
  obtain ⟨c, t, ok, split⟩ := h cs x run
  exact ⟨c, t, weaker c ok, split⟩

/-- A reader fails in front of a character with which it never begins. -/
theorem Leads.eq_none (h : Leads f p) {c : Char} {t : List Char} (bad : f c = false) :
    p (c :: t) = none := by
  rw [Option.eq_none_iff_forall_ne_some]
  intro x run
  obtain ⟨d, u, ok, same⟩ := h _ x run
  obtain ⟨rfl, -⟩ := List.cons.inj same
  simp [ok] at bad

theorem Leads.eq_none_of_head (h : Leads f p) {cs : List Char}
    (bad : ∀ c, cs.head? = some c → f c = false) : p cs = none := by
  rw [Option.eq_none_iff_forall_ne_some]
  intro x run
  obtain ⟨d, u, ok, rfl⟩ := h _ x run
  simp [bad d rfl] at ok

/-- A choice begins with the characters with which both readers begin. -/
theorem Leads.orElse (h : Leads f p) (h' : Leads f q) : Leads f (p <|> q) := by
  intro cs x run
  rcases orElse_eq_some_iff.mp run with first | ⟨-, second⟩
  · exact h cs x first
  · exact h' cs x second

/-- A choice begins as one of the two does. -/
theorem Leads.either {g : Char → Bool} (h : Leads f p) (h' : Leads g q) :
    Leads (fun c => f c || g c) (p <|> q) :=
  (h.mono fun c ok => by rw [ok, Bool.true_or]).orElse
    (h'.mono fun c ok => by rw [ok, Bool.or_true])

theorem Leads.map {g : α → β} (h : Leads f p) : Leads f (g <$> p) := by
  intro cs x run
  rw [map_apply, Option.map_eq_some_iff] at run
  obtain ⟨y, taken, -⟩ := run
  exact h cs y taken

/-- A sequence begins like its first reader. -/
theorem Leads.bind {g : α → Scan β} (h : Leads f p) : Leads f (p >>= g) := by
  intro cs x run
  obtain ⟨a, t, first, -⟩ := bind_eq_some_iff.mp run
  exact h cs (a, t) first

theorem leads_exactly (c : Char) (lead : List Char) : Leads (· == c) (exactly (c :: lead)) := by
  intro cs x run
  obtain ⟨-, rfl⟩ := exactly_eq_some_iff.mp (show exactly _ cs = some (x.1, x.2) from run)
  exact ⟨c, lead ++ x.2, beq_self_eq_true c, rfl⟩

theorem leads_one (f : Char → Bool) : Leads f (one f) := by
  intro cs x run
  obtain ⟨ok, rfl⟩ := one_eq_some_iff.mp (show one f cs = some (x.1, x.2) from run)
  exact ⟨x.1, x.2, ok, rfl⟩

theorem leads_run1 (f : Char → Bool) : Leads f (run1 f) :=
  (leads_one f).bind

end Scan

namespace Replays

open Scan

variable {α β : Type} {n credit : Nat} {claim : Prop} {G : Gauge α} {H : Gauge β}
  {D D₁ : List Char → List Char → Prop} {p q : Scan α} {f : α → Scan β}

/-- What is read again leaves a part of the text. -/
theorem shortens (h : Replays n credit claim G D p) : p.Shortens := by
  intro cs a rest run
  obtain ⟨w, split, -⟩ := h cs a rest run
  exact ⟨w, split⟩

/-- What takes nothing is read again if its result weighs no more than the credit. -/
theorem pure {a : α} (light : G.weight a ≤ credit)
    (implies : credit ≤ G.weight a → G.sound a → claim) : Replays n credit claim G D (pure a) := by
  intro cs b rest run
  simp only [pure_apply, Option.some.injEq, Prod.mk.injEq] at run
  obtain ⟨rfl, rfl⟩ := run
  refine ⟨[], rfl, fun _ => ⟨by simpa using light, fun tight sound => ?_⟩⟩
  exact ⟨implies (by simpa using tight) sound, fun rest' _ => rfl⟩

/-- A sequence whose back needs to know that its front was read. -/
theorem bind_of_run (front : Replays n 0 True G D₁ p)
    (back : ∀ a cs t, p cs = some (a, t) →
      Replays n (credit + G.weight a) (claim ∧ G.sound a) H D (f a))
    (meet : ∀ a b w rest rest', f a (w ++ rest) = some (b, rest) →
      f a (w ++ rest') = some (b, rest') → D rest rest' → D₁ (w ++ rest) (w ++ rest')) :
    Replays n credit claim H D (p >>= f) := by
  intro cs b rest run
  obtain ⟨a, t, first, second⟩ := bind_eq_some_iff.mp run
  obtain ⟨w, rfl, replay⟩ := front cs a t first
  obtain ⟨w', rfl, replay'⟩ := back a _ t first t b rest second
  refine ⟨w ++ w', by simp, fun bound => ?_⟩
  rw [List.length_append] at bound
  obtain ⟨heavy, again⟩ := replay (by omega)
  obtain ⟨heavy', again'⟩ := replay' (by omega)
  rw [weight_append]
  refine ⟨by omega, fun tight sound => ?_⟩
  obtain ⟨⟨holds, soundToo⟩, more⟩ := again' (by omega) sound
  refine ⟨holds, fun rest' related => ?_⟩
  have met := meet a b w' rest rest' second (more rest' related) related
  rw [List.append_assoc, bind_of_eq_some ((again (by omega) soundToo).2 _ met)]
  exact more rest' related

/-- A sequence. The rests of its front are texts that its back takes something from. -/
theorem bind (front : Replays n 0 True G D₁ p)
    (back : ∀ a, Replays n (credit + G.weight a) (claim ∧ G.sound a) H D (f a))
    (meet : ∀ a b w rest rest', f a (w ++ rest) = some (b, rest) →
      f a (w ++ rest') = some (b, rest') → D rest rest' → D₁ (w ++ rest) (w ++ rest')) :
    Replays n credit claim H D (p >>= f) :=
  front.bind_of_run (fun a _ _ _ => back a) meet

/-- A sequence whose front takes something. Its back takes less. -/
theorem bind_next (front : Replays (n + 1) 0 True G D₁ p) (advances : p.Advances)
    (back : ∀ a, Replays n (credit + G.weight a) (claim ∧ G.sound a) H D (f a))
    (meet : ∀ a b w rest rest', f a (w ++ rest) = some (b, rest) →
      f a (w ++ rest') = some (b, rest') → D rest rest' → D₁ (w ++ rest) (w ++ rest')) :
    Replays (n + 1) credit claim H D (p >>= f) := by
  intro cs b rest run
  obtain ⟨a, t, first, second⟩ := bind_eq_some_iff.mp run
  have shorter := advances cs a t first
  obtain ⟨w, rfl, replay⟩ := front cs a t first
  obtain ⟨w', rfl, replay'⟩ := back a t b rest second
  refine ⟨w ++ w', by simp, fun bound => ?_⟩
  simp only [List.length_append] at bound shorter
  obtain ⟨heavy, again⟩ := replay (by omega)
  obtain ⟨heavy', again'⟩ := replay' (by omega)
  rw [weight_append]
  refine ⟨by omega, fun tight sound => ?_⟩
  obtain ⟨⟨holds, soundToo⟩, more⟩ := again' (by omega) sound
  refine ⟨holds, fun rest' related => ?_⟩
  have met := meet a b w' rest rest' second (more rest' related) related
  rw [List.append_assoc, bind_of_eq_some ((again (by omega) soundToo).2 _ met)]
  exact more rest' related

/-- A reader that takes something takes nothing from an empty text. -/
theorem zero (shortens : p.Shortens) (advances : p.Advances) : Replays 0 credit claim G D p := by
  intro cs a rest run
  obtain ⟨w, rfl⟩ := shortens cs a rest run
  have shorter := advances _ a rest run
  rw [List.length_append] at shorter
  exact ⟨w, rfl, fun bound => by omega⟩

/-- What is read again in front of more rests is read again in front of fewer. -/
theorem mono {D' : List Char → List Char → Prop} {m : Nat} (h : Replays n credit claim G D p)
    (weaker : ∀ rest rest', D' rest rest' → D rest rest') (le : m ≤ n) :
    Replays m credit claim G D' p := by
  intro cs a rest run
  obtain ⟨w, split, replay⟩ := h cs a rest run
  refine ⟨w, split, fun bound => ?_⟩
  obtain ⟨heavy, again⟩ := replay (by omega)
  refine ⟨heavy, fun tight sound => ⟨(again tight sound).1, fun rest' related => ?_⟩⟩
  exact (again tight sound).2 rest' (weaker rest rest' related)

/-- Only rests that a run leaves matter. -/
theorem mono_of_run {E : List Char → List Char → Prop} (h : Replays n credit claim G D p)
    (weaker : ∀ cs a rest rest', p cs = some (a, rest) → E rest rest' → D rest rest') :
    Replays n credit claim G E p := by
  intro cs a rest run
  obtain ⟨w, split, replay⟩ := h cs a rest run
  refine ⟨w, split, fun bound => ⟨(replay bound).1, fun tight sound => ?_⟩⟩
  obtain ⟨holds, again⟩ := (replay bound).2 tight sound
  exact ⟨holds, fun rest' related => again rest' (weaker cs a rest rest' run related)⟩

/-- Where the result of a sequence is sound and nothing was dropped, this holds of its front, and
the front is replayed with the whole. -/
theorem front (first : Replays n 0 True G D₁ p)
    (back : ∀ a, Replays n (credit + G.weight a) (claim ∧ G.sound a) H D (f a))
    (meet : ∀ a b w rest rest', f a (w ++ rest) = some (b, rest) →
      f a (w ++ rest') = some (b, rest') → D rest rest' → D₁ (w ++ rest) (w ++ rest'))
    {w rest : List Char} {b : β} (run : (p >>= f) (w ++ rest) = some (b, rest))
    (bound : w.length ≤ n) (tight : credit + weight w ≤ H.weight b) (sound : H.sound b) :
    ∃ a u v, w = u ++ v ∧ p (u ++ (v ++ rest)) = some (a, v ++ rest) ∧
      f a (v ++ rest) = some (b, rest) ∧ weight u ≤ G.weight a ∧ G.sound a ∧
      ∀ rest', D rest rest' → p (u ++ (v ++ rest')) = some (a, v ++ rest') ∧
        f a (v ++ rest') = some (b, rest') ∧ D₁ (v ++ rest) (v ++ rest') := by
  obtain ⟨a, t, taken, more⟩ := bind_eq_some_iff.mp run
  obtain ⟨u, split, replay⟩ := first _ a t taken
  obtain ⟨v, rfl, replay'⟩ := back a t b rest more
  rw [← List.append_assoc] at split
  obtain rfl := List.append_cancel_right split
  rw [List.append_assoc] at taken
  simp only [List.length_append, weight_append] at bound tight
  obtain ⟨heavy, again⟩ := replay (by omega)
  obtain ⟨heavy', again'⟩ := replay' (by omega)
  obtain ⟨⟨-, soundToo⟩, more'⟩ := again' (by omega) sound
  refine ⟨a, u, v, rfl, taken, more, by omega, soundToo, fun rest' related => ?_⟩
  have met := meet a b v rest rest' more (more' rest' related) related
  exact ⟨(again (by omega) soundToo).2 _ met, more' rest' related, met⟩

/-- A reader that looks at the text before it goes on, but not beyond what it takes. -/
theorem peek_bind {γ : Type} {look : List Char → γ} {f : γ → Scan β}
    (back : ∀ c, Replays n credit claim H D (f c))
    (same : ∀ c b w rest rest', f c (w ++ rest) = some (b, rest) →
      look (w ++ rest) = look (w ++ rest')) :
    Replays n credit claim H D ((fun cs => some (look cs, cs) : Scan γ) >>= f) := by
  intro cs b rest run
  obtain ⟨c, t, first, second⟩ := bind_eq_some_iff.mp run
  cases first
  obtain ⟨w, rfl, replay⟩ := back _ cs b rest second
  refine ⟨w, rfl, fun bound => ⟨(replay bound).1, fun tight sound => ?_⟩⟩
  obtain ⟨holds, again⟩ := (replay bound).2 tight sound
  refine ⟨holds, fun rest' related => ?_⟩
  rw [bind_apply, Option.bind_some, ← same _ b w rest rest' second]
  exact again rest' related

/-- A result made of the one that was read. -/
theorem map {h : α → β} (front : Replays n 0 True G D p)
    (light : ∀ a, H.weight (h a) ≤ credit + G.weight a)
    (implies : ∀ a, credit + G.weight a ≤ H.weight (h a) → H.sound (h a) → claim ∧ G.sound a) :
    Replays n credit claim H D (h <$> p) := by
  intro cs b rest run
  rw [map_apply, Option.map_eq_some_iff] at run
  obtain ⟨⟨a, t⟩, taken, same⟩ := run
  simp only [Prod.mk.injEq] at same
  obtain ⟨rfl, rfl⟩ := same
  obtain ⟨w, split, replay⟩ := front cs a t taken
  refine ⟨w, split, fun bound => ?_⟩
  obtain ⟨heavy, again⟩ := replay bound
  have lighter := light a
  refine ⟨by omega, fun tight sound => ?_⟩
  obtain ⟨holds, soundToo⟩ := implies a (by omega) sound
  refine ⟨holds, fun rest' related => ?_⟩
  rw [map_apply, (again (by omega) soundToo).2 rest' related]
  rfl

/-- A sequence that ends with a result made of what was read last. -/
theorem bind_pure {h : α → β} (front : Replays n 0 True G D p)
    (light : ∀ a, H.weight (h a) ≤ credit + G.weight a)
    (implies : ∀ a, credit + G.weight a ≤ H.weight (h a) → H.sound (h a) → claim ∧ G.sound a) :
    Replays n credit claim H D (p >>= fun a => Pure.pure (h a)) :=
  front.map light implies

/-- The same runs measured by another gauge, with what was read before them. -/
theorem gauge {G' : Gauge α} (h : Replays n 0 True G D p)
    (light : ∀ a, G'.weight a ≤ credit + G.weight a)
    (implies : ∀ a, credit + G.weight a ≤ G'.weight a → G'.sound a → claim ∧ G.sound a) :
    Replays n credit claim G' D p := by
  have mapped := h.map (h := fun a => a) light implies
  rwa [id_map' p] at mapped

/-- A choice. Where the first reader fails on one text, it has to fail on the other. -/
theorem orElse (first : Replays n credit claim G D p) (second : Replays n credit claim G D q)
    (fails : ∀ a w rest rest', p (w ++ rest) = none → q (w ++ rest) = some (a, rest) →
      q (w ++ rest') = some (a, rest') → D rest rest' → p (w ++ rest') = none) :
    Replays n credit claim G D (p <|> q) := by
  intro cs a rest run
  rcases orElse_eq_some_iff.mp run with taken | ⟨failed, taken⟩
  · obtain ⟨w, split, replay⟩ := first cs a rest taken
    refine ⟨w, split, fun bound => ⟨(replay bound).1, fun tight sound => ?_⟩⟩
    obtain ⟨holds, again⟩ := (replay bound).2 tight sound
    exact ⟨holds, fun rest' related => orElse_of_eq_some (again rest' related)⟩
  · obtain ⟨w, rfl, replay⟩ := second cs a rest taken
    refine ⟨w, rfl, fun bound => ⟨(replay bound).1, fun tight sound => ?_⟩⟩
    obtain ⟨holds, again⟩ := (replay bound).2 tight sound
    refine ⟨holds, fun rest' related => ?_⟩
    rw [orElse_of_eq_none (fails a w rest rest' failed taken (again rest' related) related)]
    exact again rest' related

/-- A choice that the first character decides. -/
theorem orElse_of_leads {g g' : Char → Bool} (first : Replays n credit claim G D p)
    (second : Replays n credit claim G D q) (leads : Leads g p) (leads' : Leads g' q)
    (disjoint : ∀ c, g' c = true → g c = false) : Replays n credit claim G D (p <|> q) := by
  refine first.orElse second fun a w rest rest' _ taken takenToo _ => ?_
  obtain ⟨c, t, ok, same⟩ := leads' _ _ takenToo
  rw [same]
  exact leads.eq_none (disjoint c ok)

/-- A condition on what was read before. -/
theorem guard_bind {b : Bool} {f : Unit → Scan α} (back : Replays n credit claim G D (f ())) :
    Replays n credit claim G D ((guard (b = true) : Scan Unit) >>= f) := by
  intro cs a rest run
  cases b with
  | true => exact back cs a rest run
  | false => cases run

/-- Something optional is read again if it is left out in both places or in neither. -/
theorem optional (h : Replays n 0 True G D p) :
    Replays n 0 True G.option (fun rest rest' => D rest rest' ∧ (p rest = none → p rest' = none))
      (Scan.optional p) := by
  intro cs o rest run
  rcases optional_eq_some_iff.mp run with ⟨a, rfl, taken⟩ | ⟨rfl, failed, rfl⟩
  · obtain ⟨w, split, replay⟩ := h cs a rest taken
    refine ⟨w, split, fun bound => ?_⟩
    obtain ⟨heavy, again⟩ := replay bound
    refine ⟨by simpa [Gauge.option] using heavy, fun tight sound => ⟨trivial, ?_⟩⟩
    intro rest' related
    exact optional_of_eq_some
      ((again (by simpa [Gauge.option] using tight) (sound a rfl)).2 rest' related.1)
  · refine ⟨[], rfl, fun _ => ⟨by simp [Gauge.option], fun _ _ => ⟨trivial, ?_⟩⟩⟩
    intro rest' related
    exact optional_of_eq_none (related.2 failed)

/-- An optional front, with what follows if it is there and if it is not. -/
theorem optional_bind {f : Option α → Scan β} (front : Replays n 0 True G D₁ p)
    (found : ∀ a, Replays n (credit + G.weight a) (claim ∧ G.sound a) H D (f (some a)))
    (missing : Replays n credit claim H D (f none))
    (meet : ∀ a b w rest rest', f (some a) (w ++ rest) = some (b, rest) →
      f (some a) (w ++ rest') = some (b, rest') → D rest rest' → D₁ (w ++ rest) (w ++ rest'))
    (fails : ∀ b w rest rest', p (w ++ rest) = none → f none (w ++ rest) = some (b, rest) →
      f none (w ++ rest') = some (b, rest') → D rest rest' → p (w ++ rest') = none) :
    Replays n credit claim H D (Scan.optional p >>= f) := by
  intro cs b rest run
  obtain ⟨o, t, first, second⟩ := bind_eq_some_iff.mp run
  rcases optional_eq_some_iff.mp first with ⟨a, rfl, taken⟩ | ⟨rfl, failed, rfl⟩
  · have both : (p >>= fun a => f (some a)) cs = some (b, rest) :=
      bind_eq_some_iff.mpr ⟨a, t, taken, second⟩
    obtain ⟨w, split, replay⟩ := front.bind found meet cs b rest both
    refine ⟨w, split, fun bound => ⟨(replay bound).1, fun tight sound => ?_⟩⟩
    obtain ⟨holds, again⟩ := (replay bound).2 tight sound
    refine ⟨holds, fun rest' related => ?_⟩
    obtain ⟨a', t', taken', second'⟩ := bind_eq_some_iff.mp (again rest' related)
    rw [bind_of_eq_some (optional_of_eq_some taken')]
    exact second'
  · obtain ⟨w, rfl, replay⟩ := missing t b rest second
    refine ⟨w, rfl, fun bound => ⟨(replay bound).1, fun tight sound => ?_⟩⟩
    obtain ⟨holds, again⟩ := (replay bound).2 tight sound
    refine ⟨holds, fun rest' related => ?_⟩
    have failed' := fails b w rest rest' failed second (again rest' related) related
    rw [bind_of_eq_some (optional_of_eq_none failed')]
    exact again rest' related

/-- A repetition. Each run but the last is followed by the text of the next one. -/
theorem many (h : Replays n 0 True G D₁ p) (advances : p.Advances)
    (meet : ∀ a w rest rest', p (w ++ rest) = some (a, rest) → p (w ++ rest') = some (a, rest') →
      w.length ≤ n → weight w ≤ G.weight a → G.sound a → D₁ rest rest' →
      D₁ (w ++ rest) (w ++ rest'))
    (ends : ∀ rest rest', D rest rest' → D₁ rest rest' ∧ (p rest = none → p rest' = none)) :
    Replays n 0 True G.list D (Scan.many p) := by
  intro cs as rest run
  have chain := many_iff_chain.mp run
  clear run
  -- the texts of the runs, from the last one to the first
  suffices found : ∃ w, cs = w ++ rest ∧ (w.length ≤ n → G.list.weight as ≤ weight w ∧
      (weight w ≤ G.list.weight as → G.list.sound as → ∀ rest', D rest rest' →
        Chain p (w ++ rest') as rest' ∧ D₁ (w ++ rest) (w ++ rest'))) by
    obtain ⟨w, split, replay⟩ := found
    refine ⟨w, split, fun bound => ?_⟩
    obtain ⟨heavy, again⟩ := replay bound
    refine ⟨by omega, fun tight sound => ⟨trivial, fun rest' related => ?_⟩⟩
    exact many_eq_some_of_chain (again (by omega) sound rest' related).1
  induction chain with
  | nil stops =>
    refine ⟨[], rfl, fun _ => ⟨by simp [Gauge.list], fun _ _ rest' related => ⟨.nil ?_, ?_⟩⟩⟩
    · intro b t taken
      have failed := (ends _ _ related).2 (by
        rw [Option.eq_none_iff_forall_ne_some]
        intro x taken
        exact stops x.1 x.2 taken (advances _ _ _ taken))
      simp [failed] at taken
    · exact (ends _ _ related).1
  | cons taken shorter _ ih =>
    obtain ⟨w', rfl, replay'⟩ := ih
    obtain ⟨w, rfl, replay⟩ := h _ _ _ taken
    refine ⟨w ++ w', by simp, fun bound => ?_⟩
    rw [List.length_append] at bound
    obtain ⟨heavy, again⟩ := replay (by omega)
    obtain ⟨heavy', again'⟩ := replay' (by omega)
    simp only [Gauge.list, total_cons, weight_append] at heavy' again' ⊢
    refine ⟨by omega, fun tight sound rest' related => ?_⟩
    have here := sound _ List.mem_cons_self
    obtain ⟨more, met⟩ :=
      again' (by omega) (fun b member => sound b (List.mem_cons_of_mem _ member)) rest' related
    have next := (again (by omega) here).2 (w' ++ rest') met
    rw [List.append_assoc]
    refine ⟨.cons next ?_ more, ?_⟩
    · simp only [List.length_append] at shorter ⊢
      omega
    · have := meet _ w (w' ++ _) (w' ++ rest') taken next (by omega) (by omega) here met
      simpa using this

/-! ### Leaves -/

/-- A given text is read again whatever is behind it. -/
theorem exactly (n : Nat) (lead : List Char) :
    Replays n 0 True (Gauge.fixed lead) (fun _ _ => True) (Scan.exactly lead) := by
  intro cs a rest run
  obtain ⟨rfl, rfl⟩ := exactly_eq_some_iff.mp run
  refine ⟨a, rfl, fun _ => ⟨by simp [Gauge.fixed], fun _ _ => ⟨trivial, fun rest' _ => ?_⟩⟩⟩
  exact exactly_append _ _

/-- A fixed lead and what is behind it. -/
theorem exactly_bind {f : List Char → Scan β} {c : Char} {lead : List Char}
    (back : Replays n (credit + weight (c :: lead)) claim H D (f (c :: lead))) :
    Replays (n + 1) credit claim H D (Scan.exactly (c :: lead) >>= f) := by
  intro cs b rest run
  obtain ⟨a, t, first, second⟩ := bind_eq_some_iff.mp run
  obtain ⟨rfl, rfl⟩ := exactly_eq_some_iff.mp first
  obtain ⟨w, rfl, replay⟩ := back t b rest second
  refine ⟨c :: lead ++ w, by simp, fun bound => ?_⟩
  rw [List.length_append, List.length_cons] at bound
  obtain ⟨heavy, again⟩ := replay (by omega)
  rw [weight_append]
  refine ⟨by omega, fun tight sound => ?_⟩
  obtain ⟨holds, more⟩ := again (by omega) sound
  refine ⟨holds, fun rest' related => ?_⟩
  rw [List.append_assoc, bind_of_eq_some (exactly_append _ _)]
  exact more rest' related

/-- A fixed lead, with the same bound behind it. -/
theorem lead_bind {f : List Char → Scan β} {c : Char} {lead : List Char}
    (back : Replays n (credit + weight (c :: lead)) claim H D (f (c :: lead))) :
    Replays n credit claim H D (Scan.exactly (c :: lead) >>= f) :=
  back.exactly_bind.mono (fun _ _ related => related) (Nat.le_succ n)

/-- A longest run of characters. -/
theorem run1 (n : Nat) (f : Char → Bool) :
    Replays n 0 True Gauge.text
      (fun rest rest' => rest.head? = rest'.head? ∨ ∀ c, rest'.head? = some c → f c = false)
      (Scan.run1 f) := by
  intro cs a rest taken
  obtain ⟨nonempty, split, all, ends⟩ := run1_eq_some_iff.mp taken
  refine ⟨a, split, fun _ => ⟨by simp [Gauge.text], fun _ _ => ⟨trivial, fun rest' related => ?_⟩⟩⟩
  refine run1_eq_some_iff.mpr ⟨nonempty, rfl, all, ?_⟩
  rcases related with same | other
  · rwa [← same]
  · exact other

end Replays

end TerraformPins
