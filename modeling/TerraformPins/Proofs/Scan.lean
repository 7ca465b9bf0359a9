import TerraformPins.Proofs.Text
import TerraformPins.Scan

/-!
# Running a reader

Equations for readers built from other readers, so that a run can be taken apart into the runs of
its parts and put together from them.

## Main definitions

* `Scan.Chain` — the runs that a repetition is made of
* `Scan.Yields` — a property of whatever a reader makes of a text

## Main results

* `Scan.many_eq` — a repetition does not depend on its bound
* `Scan.many_iff_chain` — a repetition is a chain of runs
-/

namespace TerraformPins

namespace Scan

variable {α β : Type} {p : Scan α} {cs rest : List Char}

theorem bind_apply (p : Scan α) (f : α → Scan β) (cs : List Char) :
    (p >>= f) cs = (p cs).bind fun x => f x.1 x.2 := rfl

/-- A sequence of readers succeeds if the first one does and the second one does on what is left. -/
theorem bind_eq_some_iff {f : α → Scan β} {x : β × List Char} :
    (p >>= f) cs = some x ↔ ∃ a t, p cs = some (a, t) ∧ f a t = some x := by
  rw [bind_apply]
  constructor
  · intro h
    obtain ⟨⟨a, t⟩, first, second⟩ := Option.bind_eq_some_iff.mp h
    exact ⟨a, t, first, second⟩
  · rintro ⟨a, t, first, second⟩
    rw [first]
    exact second

theorem bind_of_eq_some {f : α → Scan β} {a : α} (h : p cs = some (a, rest)) :
    (p >>= f) cs = f a rest := by
  rw [bind_apply, h]
  rfl

theorem bind_of_eq_none {f : α → Scan β} (h : p cs = none) : (p >>= f) cs = none := by
  rw [bind_apply, h]
  rfl

/-- A sequence of readers fails if the second one fails behind everything that the first one
makes. -/
theorem bind_eq_none_iff {f : α → Scan β} :
    (p >>= f) cs = none ↔ ∀ a t, p cs = some (a, t) → f a t = none := by
  rw [bind_apply, Option.bind_eq_none_iff]
  exact ⟨fun h a t run => h (a, t) run, fun h x run => h x.1 x.2 run⟩

@[simp] theorem pure_apply (a : α) (cs : List Char) : (pure a : Scan α) cs = some (a, cs) := rfl

theorem map_apply (f : α → β) (p : Scan α) (cs : List Char) :
    (f <$> p) cs = (p cs).map fun x => (f x.1, x.2) := by
  show (p cs).bind (fun x => some (f x.1, x.2)) = _
  cases p cs <;> rfl

theorem orElse_apply (p q : Scan α) (cs : List Char) : (p <|> q) cs = (p cs).or (q cs) := by
  show (p cs <|> q cs) = _
  cases p cs <;> rfl

theorem orElse_of_eq_none {q : Scan α} (h : p cs = none) : (p <|> q) cs = q cs := by
  rw [orElse_apply, h, Option.none_or]

theorem orElse_of_eq_some {q : Scan α} {x : α × List Char} (h : p cs = some x) :
    (p <|> q) cs = some x := by
  rw [orElse_apply, h, Option.some_or]

/-- The second of two readers counts only where the first one fails. -/
theorem orElse_eq_some_iff {q : Scan α} {x : α × List Char} :
    (p <|> q) cs = some x ↔ p cs = some x ∨ (p cs = none ∧ q cs = some x) := by
  rw [orElse_apply, Option.or_eq_some_iff]

theorem orElse_eq_none_iff {q : Scan α} : (p <|> q) cs = none ↔ p cs = none ∧ q cs = none := by
  rw [orElse_apply, Option.or_eq_none_iff]

theorem guard_apply (b : Bool) (cs : List Char) :
    (guard (b = true) : Scan Unit) cs = if b then some ((), cs) else none := by
  cases b <;> rfl

theorem ifThenElse_eq_none_iff {c : Prop} [Decidable c] {q : Scan α} :
    (if c then p else q) cs = none ↔ if c then p cs = none else q cs = none := by
  split <;> rfl

/-! ### Leaves -/

/-- A given text is read in front of everything. -/
theorem exactly_append (lead rest : List Char) :
    exactly lead (lead ++ rest) = some (lead, rest) := by
  rw [exactly, stripFront?_append]
  rfl

/-- A given text is read where it stands. -/
theorem exactly_eq_some_iff {lead a : List Char} :
    exactly lead cs = some (a, rest) ↔ a = lead ∧ cs = lead ++ rest := by
  rw [exactly, Option.map_eq_some_iff]
  constructor
  · rintro ⟨t, stripped, same⟩
    cases same
    exact ⟨rfl, stripFront?_eq_some_iff.mp stripped⟩
  · rintro ⟨rfl, rfl⟩
    exact ⟨rest, stripFront?_append _ _, rfl⟩

/-- What is read behind a given text. -/
theorem exactly_bind_eq_some_iff {lead : List Char} {f : List Char → Scan β} {x : β × List Char} :
    (exactly lead >>= f) cs = some x ↔ ∃ t, cs = lead ++ t ∧ f lead t = some x := by
  rw [bind_eq_some_iff]
  constructor
  · rintro ⟨a, t, taken, more⟩
    obtain ⟨rfl, rfl⟩ := exactly_eq_some_iff.mp taken
    exact ⟨t, rfl, more⟩
  · rintro ⟨t, rfl, more⟩
    exact ⟨lead, t, exactly_append lead t, more⟩

theorem exactly_cons_eq_none {c d : Char} {lead : List Char} (ne : c ≠ d) :
    exactly (c :: lead) (d :: cs) = none := by
  simp [exactly, stripFront?, ne]

/-- One character of a kind is read where one stands. -/
theorem one_eq_some_iff {f : Char → Bool} {c : Char} :
    one f cs = some (c, rest) ↔ f c = true ∧ cs = c :: rest := by
  cases cs with
  | nil => simp [one]
  | cons d cs =>
    rw [one]
    split
    case isTrue ok =>
      simp only [Option.some.injEq, Prod.mk.injEq, List.cons.injEq]
      exact ⟨fun ⟨same, tail⟩ => ⟨same ▸ ok, same, tail⟩, fun ⟨_, same, tail⟩ => ⟨same, tail⟩⟩
    case isFalse bad =>
      simp only [List.cons.injEq]
      exact ⟨nofun, fun ⟨ok, same, _⟩ => absurd (same ▸ ok) bad⟩

theorem one_cons (f : Char → Bool) (c : Char) (cs : List Char) :
    one f (c :: cs) = if f c then some (c, cs) else none := rfl

theorem run_apply (f : Char → Bool) (cs : List Char) :
    run f cs = some (cs.takeWhile f, cs.dropWhile f) := rfl

/-- A run ends in front of the first character that does not belong to it. -/
theorem run_append {f : Char → Bool} {w : List Char} (all : ∀ c ∈ w, f c = true)
    (ends : ∀ c, rest.head? = some c → f c = false) : run f (w ++ rest) = some (w, rest) := by
  induction w with
  | nil =>
    cases rest with
    | nil => rfl
    | cons c rest => simp [run_apply, ends c rfl]
  | cons c w ih =>
    have inside := ih fun d member => all d (List.mem_cons_of_mem _ member)
    simp only [run_apply, Option.some.injEq, Prod.mk.injEq] at inside
    simp [run_apply, all c List.mem_cons_self, inside.1, inside.2]

/-- A run takes all characters of a kind, up to the first other one. -/
theorem run_eq_some_iff {f : Char → Bool} {w : List Char} :
    run f cs = some (w, rest) ↔
      cs = w ++ rest ∧ (∀ c ∈ w, f c = true) ∧ ∀ c, rest.head? = some c → f c = false := by
  constructor
  · intro h
    simp only [run_apply, Option.some.injEq, Prod.mk.injEq] at h
    obtain ⟨rfl, rfl⟩ := h
    refine ⟨(List.takeWhile_append_dropWhile).symm, fun c member => ?_, fun c first => ?_⟩
    · exact List.all_eq_true.mp (List.all_takeWhile (l := cs)) c member
    have stopped := List.head?_dropWhile_not f cs
    rw [first] at stopped
    simpa using stopped
  · rintro ⟨rfl, all, ends⟩
    exact run_append all ends

/-- A run of at least one character. -/
theorem run1_eq_some_iff {f : Char → Bool} {w : List Char} :
    run1 f cs = some (w, rest) ↔
      w ≠ [] ∧ cs = w ++ rest ∧ (∀ c ∈ w, f c = true) ∧
        ∀ c, rest.head? = some c → f c = false := by
  rw [run1, bind_eq_some_iff]
  constructor
  · rintro ⟨c, t, first, more⟩
    obtain ⟨ok, rfl⟩ := one_eq_some_iff.mp first
    obtain ⟨w', t', second, last⟩ := bind_eq_some_iff.mp more
    obtain ⟨rfl, all, ends⟩ := run_eq_some_iff.mp second
    simp only [pure_apply, Option.some.injEq, Prod.mk.injEq] at last
    obtain ⟨rfl, rfl⟩ := last
    refine ⟨by simp, rfl, ?_, ends⟩
    intro d member
    rcases List.mem_cons.mp member with rfl | inside
    · exact ok
    · exact all d inside
  · rintro ⟨nonempty, rfl, all, ends⟩
    obtain ⟨c, w, rfl⟩ := List.exists_cons_of_ne_nil nonempty
    refine ⟨c, w ++ rest, one_eq_some_iff.mpr ⟨all c List.mem_cons_self, rfl⟩, ?_⟩
    rw [bind_of_eq_some (run_append (fun d member => all d (List.mem_cons_of_mem _ member)) ends)]
    rfl

/-- There is no run where another character stands first. -/
theorem run1_eq_none_iff {f : Char → Bool} :
    run1 f cs = none ↔ ∀ c, cs.head? = some c → f c = false := by
  cases cs with
  | nil => exact ⟨fun _ _ => nofun, fun _ => rfl⟩
  | cons c cs =>
    cases ok : f c with
    | false => simp [run1, bind_apply, one_cons, ok]
    | true =>
      have first : one f (c :: cs) = some (c, cs) := by rw [one_cons, if_pos ok]
      have runs : run1 f (c :: cs) = some (c :: cs.takeWhile f, cs.dropWhile f) := by
        rw [run1, bind_of_eq_some first, bind_of_eq_some (run_apply f cs), pure_apply]
      simp [runs, ok]

/-- Something optional is left out only where it cannot be read. -/
theorem optional_eq_some_iff {o : Option α} :
    optional p cs = some (o, rest) ↔
      (∃ a, o = some a ∧ p cs = some (a, rest)) ∨ (o = none ∧ p cs = none ∧ rest = cs) := by
  constructor
  · intro h
    rw [optional] at h
    split at h
    case h_1 a t taken =>
      simp only [Option.some.injEq, Prod.mk.injEq] at h
      obtain ⟨rfl, rfl⟩ := h
      exact .inl ⟨a, rfl, taken⟩
    case h_2 failed =>
      simp only [Option.some.injEq, Prod.mk.injEq] at h
      obtain ⟨rfl, rfl⟩ := h
      exact .inr ⟨rfl, failed, rfl⟩
  · rintro (⟨a, rfl, taken⟩ | ⟨rfl, failed, rfl⟩)
    · rw [optional, taken]
    · rw [optional, failed]

theorem optional_of_eq_none (h : p cs = none) : optional p cs = some (none, cs) := by
  rw [optional, h]

theorem optional_of_eq_some {a : α} (h : p cs = some (a, rest)) :
    optional p cs = some (some a, rest) := by
  rw [optional, h]

/-! ### Repetition -/

theorem manyUpTo_succ (p : Scan α) (fuel : Nat) (cs : List Char) :
    manyUpTo p (fuel + 1) cs =
      match p cs with
      | none => some ([], cs)
      | some (a, rest) =>
        if rest.length < cs.length then
          (manyUpTo p fuel rest).map fun (more, rest) => (a :: more, rest)
        else some ([], cs) := rfl

/-- Bounds that are not less than the length of the text do not matter. -/
theorem manyUpTo_eq_manyUpTo {fuel more : Nat} (enough : cs.length ≤ fuel)
    (enoughToo : cs.length ≤ more) : manyUpTo p fuel cs = manyUpTo p more cs := by
  -- A round is repeated only behind a shorter text, so both bounds still suffice there.
  induction fuel generalizing cs more with
  | zero =>
    obtain rfl := List.length_eq_zero_iff.mp (Nat.le_zero.mp enough)
    cases more with
    | zero => rfl
    | succ more =>
      rw [manyUpTo_succ]
      cases p [] <;> rfl
  | succ fuel ih =>
    cases more with
    | zero =>
      obtain rfl := List.length_eq_zero_iff.mp (Nat.le_zero.mp enoughToo)
      rw [manyUpTo_succ]
      cases p [] <;> rfl
    | succ more =>
      rw [manyUpTo_succ, manyUpTo_succ]
      cases p cs with
      | none => rfl
      | some x =>
        simp only
        split
        case isFalse => rfl
        case isTrue shorter => rw [ih (by omega) (by omega : x.2.length ≤ more)]

/-- One round of a repetition: it goes on as long as the reader takes something. -/
theorem many_eq (p : Scan α) (cs : List Char) :
    many p cs =
      match p cs with
      | none => some ([], cs)
      | some (a, rest) =>
        if rest.length < cs.length then (many p rest).map fun (more, rest) => (a :: more, rest)
        else some ([], cs) := by
  rw [many, manyUpTo_eq_manyUpTo (Nat.le_refl _) (Nat.le_succ _), manyUpTo_succ]
  cases p cs with
  | none => rfl
  | some x =>
    simp only
    split
    case isFalse => rfl
    case isTrue shorter => rw [many, manyUpTo_eq_manyUpTo (Nat.le_of_lt shorter) (Nat.le_refl _)]

/-- The runs that a repetition is made of: each takes something, and the one behind them fails or
takes nothing. -/
inductive Chain (p : Scan α) : List Char → List α → List Char → Prop
  | nil {cs : List Char} (stops : ∀ a rest, p cs = some (a, rest) → ¬ rest.length < cs.length) :
      Chain p cs [] cs
  | cons {cs rest last : List Char} {a : α} {as : List α} (taken : p cs = some (a, rest))
      (shorter : rest.length < cs.length) (more : Chain p rest as last) : Chain p cs (a :: as) last

/-- A repetition does the runs of a chain. -/
theorem many_eq_some_of_chain {as : List α} (h : Chain p cs as rest) :
    many p cs = some (as, rest) := by
  induction h with
  | nil stops =>
    rw [many_eq]
    split
    case h_1 => rfl
    case h_2 a t taken => rw [if_neg (stops a t taken)]
  | cons taken shorter _ ih =>
    rw [many_eq, taken]
    simp [shorter, ih]

/-- Every repetition is made of such runs, by induction on the length of the text. -/
theorem exists_chain (p : Scan α) (cs : List Char) : ∃ as rest, Chain p cs as rest := by
  induction n : cs.length using Nat.strongRecOn generalizing cs with
  | ind n ih =>
    by_cases goes : ∃ a rest, p cs = some (a, rest) ∧ rest.length < cs.length
    · obtain ⟨a, rest, taken, shorter⟩ := goes
      obtain ⟨as, last, more⟩ := ih rest.length (by omega) rest rfl
      exact ⟨a :: as, last, .cons taken shorter more⟩
    · exact ⟨[], cs, .nil fun a rest taken shorter => goes ⟨a, rest, taken, shorter⟩⟩

/-- A repetition and its runs say the same. -/
theorem many_iff_chain {as : List α} : many p cs = some (as, rest) ↔ Chain p cs as rest := by
  refine ⟨fun h => ?_, many_eq_some_of_chain⟩
  obtain ⟨bs, last, chain⟩ := exists_chain p cs
  have same := many_eq_some_of_chain chain
  rw [h, Option.some.injEq, Prod.mk.injEq] at same
  obtain ⟨rfl, rfl⟩ := same
  exact chain

/-- Whatever the reader makes of a text satisfies `Q`. -/
def Yields (p : Scan α) (Q : α → Prop) : Prop :=
  ∀ cs a rest, p cs = some (a, rest) → Q a

namespace Yields

variable {q : Scan α} {f : α → Scan β} {P : α → Prop} {Q : β → Prop}

/-- What the second reader makes of everything satisfies what both make together. -/
theorem bind (back : ∀ a, (f a).Yields Q) : (p >>= f).Yields Q := by
  intro cs b rest run
  obtain ⟨a, t, -, more⟩ := bind_eq_some_iff.mp run
  exact back a t b rest more

theorem pure {a : α} (h : P a) : (Pure.pure a : Scan α).Yields P := by
  intro cs b rest run
  cases run
  exact h

theorem orElse (left : p.Yields P) (right : q.Yields P) : (p <|> q).Yields P := by
  intro cs a rest run
  rcases orElse_eq_some_iff.mp run with first | ⟨-, second⟩
  · exact left cs a rest first
  · exact right cs a rest second

theorem ite {c : Prop} [Decidable c] (yes : p.Yields P) (no : q.Yields P) :
    (if c then p else q).Yields P := by
  split
  · exact yes
  · exact no

/-- What each run makes holds of all that a repetition makes. -/
theorem many (each : p.Yields P) : (many p).Yields fun as => ∀ a ∈ as, P a := by
  intro cs as rest run
  induction many_iff_chain.mp run with
  | nil => exact fun a member => absurd member List.not_mem_nil
  | cons taken _ more ih =>
    exact List.forall_mem_cons.mpr ⟨each _ _ _ taken, ih (many_eq_some_of_chain more)⟩

end Yields

end Scan

end TerraformPins
