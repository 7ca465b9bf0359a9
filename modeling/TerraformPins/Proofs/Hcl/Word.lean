import TerraformPins.Hcl.Number
import TerraformPins.Proofs.Hcl.Blank

/-!
# Replaying words and numbers

A word or a number ends in front of a character that cannot belong to it. A point or a letter behind
a number needs a second look.

## Main definitions

* `Alike` — two rests that end a word or a number alike

## Main results

* `replays_identifier`, `Number.replays_unsigned`, `Number.replays_signed`
-/

namespace TerraformPins.Hcl

open Scan

/-- Two rests behind a word or a number: they begin with the same two characters, or the second one
begins with a character that belongs to neither. -/
def Alike (rest rest' : List Char) : Prop :=
  (∃ a b t t', rest = a :: b :: t ∧ rest' = a :: b :: t' ∧ a ≠ 'e' ∧ a ≠ 'E') ∨
    ∀ c, rest'.head? = some c → isWordPart c = false ∧ c ≠ '.'

/-- Two rests behind a word begin with the same character, or the second one with a character that
is in no word. -/
theorem Alike.head {f : Char → Bool} {rest rest' : List Char} (h : Alike rest rest')
    (word : ∀ c, isWordPart c = false → f c = false) :
    rest.head? = rest'.head? ∨ ∀ c, rest'.head? = some c → f c = false := by
  rcases h with ⟨a, b, t, t', rfl, rfl, -⟩ | ends
  · exact .inl rfl
  · exact .inr fun c first => word c (ends c first).1

/-- A character that is in no word is no digit. -/
theorem isDigit_eq_false_of_word (c : Char) (h : isWordPart c = false) : c.isDigit = false := by
  simp only [isWordPart, Char.isAlphanum, Bool.or_eq_false_iff] at h
  exact h.1.1.2

/-- Two rests behind a word: they begin with the same character, or the second one begins with a
character that belongs to no word. -/
def EndsWord (rest rest' : List Char) : Prop :=
  rest.head? = rest'.head? ∨ ∀ c, rest'.head? = some c → isWordPart c = false

/-- A word is read again in front of a rest that ends it. -/
theorem replays_word (n : Nat) : Replays n 0 True Gauge.text EndsWord identifier := by
  intro cs a rest run
  rw [identifier, bind_eq_some_iff] at run
  obtain ⟨c, t, first, second⟩ := run
  obtain ⟨start, rfl⟩ := one_eq_some_iff.mp first
  obtain ⟨w, t', taken, last⟩ := bind_eq_some_iff.mp second
  cases last
  obtain ⟨rfl, all, ends⟩ := run_eq_some_iff.mp taken
  refine ⟨c :: w, rfl, fun _ =>
    ⟨by simp [Gauge.text], fun _ _ => ⟨trivial, fun rest' related => ?_⟩⟩⟩
  have stops : ∀ d, rest'.head? = some d → isWordPart d = false := by
    rcases related with same | other
    · rwa [← same]
    · exact other
  have taken' : one isWordStart (c :: (w ++ rest')) = some (c, w ++ rest') :=
    one_eq_some_iff.mpr ⟨start, rfl⟩
  rw [List.cons_append, identifier, bind_of_eq_some taken', bind_of_eq_some (run_append all stops)]
  rfl

theorem replays_identifier (n : Nat) : Replays n 0 True Gauge.text Alike identifier :=
  (replays_word n).mono (fun _ _ alike => alike.head fun _ => id) (Nat.le_refl n)

namespace Number

theorem fraction_eq_none {c : Char} {cs : List Char} (ne : c ≠ '.') : fraction (c :: cs) = none :=
  bind_of_eq_none (exactly_cons_eq_none ne.symm)

theorem exponent_eq_none {cs : List Char}
    (h : ∀ c, cs.head? = some c → c ≠ 'e' ∧ c ≠ 'E') : exponent cs = none := by
  refine bind_of_eq_none ?_
  cases cs with
  | nil => rfl
  | cons c cs =>
    have ne := h c rfl
    simp [one_cons, ne]

/-- Behind a point a fraction is a run of digits. -/
theorem fraction_point (cs : List Char) : fraction ('.' :: cs) = Scan.run1 Char.isDigit cs := by
  have taken : exactly ['.'] ('.' :: cs) = some (['.'], cs) := exactly_append ['.'] cs
  rw [fraction, bind_of_eq_some taken]

/-- What ends a number does not begin a fraction. -/
theorem fraction_eq_none_of_alike {rest rest' : List Char} (alike : Alike rest rest')
    (h : fraction rest = none) : fraction rest' = none := by
  rcases alike with ⟨a, b, t, t', rfl, rfl, -⟩ | ends
  · by_cases point : a = '.'
    · subst point
      rw [fraction_point, run1_eq_none_iff] at h ⊢
      exact fun c first => h c first
    · exact fraction_eq_none point
  · cases rest' with
    | nil => rfl
    | cons c t => exact fraction_eq_none (ends c rfl).2

/-- There is no exponent in front of a rest like the one behind a number. -/
theorem exponent_eq_none_of_alike {rest rest' : List Char} (alike : Alike rest rest') :
    exponent rest' = none := by
  refine exponent_eq_none fun c first => ?_
  rcases alike with ⟨a, b, t, t', rfl, rfl, lower, upper⟩ | ends
  · obtain rfl := Option.some.inj first
    exact ⟨lower, upper⟩
  · have := (ends c first).1
    constructor <;> rintro rfl <;> revert this <;> decide

/-- An exponent is its letter, its sign and its digits, and it is read again. -/
theorem exponent_spec {cs rest : List Char} {e : List Char × List Char × List Char}
    (h : exponent cs = some (e, rest)) :
    (∃ c t, cs = c :: t ∧ (c = 'e' ∨ c = 'E')) ∧ cs = e.1 ++ e.2.1 ++ e.2.2 ++ rest ∧
      ∀ rest', Alike rest rest' → exponent (e.1 ++ e.2.1 ++ e.2.2 ++ rest') = some (e, rest') := by
  rw [exponent, bind_eq_some_iff] at h
  obtain ⟨mark, t, first, h⟩ := h
  obtain ⟨isMark, rfl⟩ := one_eq_some_iff.mp first
  obtain ⟨sign, t', second, h⟩ := bind_eq_some_iff.mp h
  obtain ⟨digits, t'', third, last⟩ := bind_eq_some_iff.mp h
  cases last
  obtain ⟨nonempty, rfl, all, ends⟩ := run1_eq_some_iff.mp third
  refine ⟨⟨mark, t, rfl, by simpa using isMark⟩, ?_⟩
  have again : ∀ rest', Alike rest rest' → Scan.run1 Char.isDigit (digits ++ rest') =
      some (digits, rest') := by
    intro rest' alike
    refine run1_eq_some_iff.mpr ⟨nonempty, rfl, all, ?_⟩
    rcases alike.head isDigit_eq_false_of_word with same | other
    · rwa [← same]
    · exact other
  -- Without a sign the first digit is met instead, and it is not taken for a sign.
  obtain ⟨d, digits, rfl⟩ := List.exists_cons_of_ne_nil nonempty
  have isDigit := all d List.mem_cons_self
  rcases optional_eq_some_iff.mp second with ⟨s, rfl, signed⟩ | ⟨rfl, -, rfl⟩
  · obtain ⟨isSign, rfl⟩ := one_eq_some_iff.mp signed
    refine ⟨by simp, fun rest' alike => ?_⟩
    have signed' : one (fun c => c == '+' || c == '-') (s :: (d :: digits ++ rest')) =
        some (s, d :: digits ++ rest') := one_eq_some_iff.mpr ⟨isSign, rfl⟩
    have marked : one (fun c => c == 'e' || c == 'E') (mark :: s :: (d :: digits ++ rest')) =
        some (mark, s :: (d :: digits ++ rest')) := one_eq_some_iff.mpr ⟨isMark, rfl⟩
    show exponent (mark :: s :: (d :: digits ++ rest')) = _
    rw [exponent, bind_of_eq_some marked, bind_of_eq_some (optional_of_eq_some signed'),
      bind_of_eq_some (again rest' alike)]
    rfl
  · refine ⟨by simp, fun rest' alike => ?_⟩
    have unsigned' : one (fun c => c == '+' || c == '-') (d :: digits ++ rest') = none := by
      have plus : d ≠ '+' := by
        rintro rfl
        revert isDigit
        decide
      have minus : d ≠ '-' := by
        rintro rfl
        revert isDigit
        decide
      simp [one_cons, plus, minus]
    have marked : one (fun c => c == 'e' || c == 'E') (mark :: (d :: digits ++ rest')) =
        some (mark, d :: digits ++ rest') := one_eq_some_iff.mpr ⟨isMark, rfl⟩
    show exponent (mark :: (d :: digits ++ rest')) = _
    rw [exponent, bind_of_eq_some marked, bind_of_eq_some (optional_of_eq_none unsigned'),
      bind_of_eq_some (again rest' alike)]
    rfl

/-- Two texts behind digits: the digits do not go on. -/
def EndsDigits (cs cs' : List Char) : Prop :=
  cs.head? = cs'.head? ∨ ∀ c, cs'.head? = some c → c.isDigit = false

/-- A run of digits is read again in front of a rest that ends it. -/
theorem EndsDigits.run1 {cs cs' digits : List Char} (h : EndsDigits cs cs')
    (run : Scan.run1 Char.isDigit (digits ++ cs) = some (digits, cs)) :
    Scan.run1 Char.isDigit (digits ++ cs') = some (digits, cs') := by
  obtain ⟨nonempty, -, all, ends⟩ := run1_eq_some_iff.mp run
  refine run1_eq_some_iff.mpr ⟨nonempty, rfl, all, ?_⟩
  rcases h with same | other
  · rwa [← same]
  · exact other

theorem endsDigits_of_alike {cs cs' : List Char} (h : Alike cs cs') : EndsDigits cs cs' :=
  h.head isDigit_eq_false_of_word

/-- An exponent, or nothing if there is none. -/
theorem optional_exponent_spec {cs rest : List Char}
    {o : Option (List Char × List Char × List Char)}
    (h : Scan.optional exponent cs = some (o, rest)) :
    ∃ w, w = (o.getD ([], [], [])).1 ++ (o.getD ([], [], [])).2.1 ++ (o.getD ([], [], [])).2.2 ∧
      cs = w ++ rest ∧ ∀ rest', Alike rest rest' →
        Scan.optional exponent (w ++ rest') = some (o, rest') ∧ EndsDigits cs (w ++ rest') ∧
          (fraction cs = none → fraction (w ++ rest') = none) := by
  rcases optional_eq_some_iff.mp h with ⟨e, rfl, taken⟩ | ⟨rfl, failed, rfl⟩
  · obtain ⟨⟨c, t, front, mark⟩, split, again⟩ := exponent_spec taken
    refine ⟨_, rfl, split, fun rest' alike => ?_⟩
    have more := again rest' alike
    obtain ⟨⟨d, t', front', mark'⟩, -, -⟩ := exponent_spec more
    refine ⟨optional_of_eq_some more, .inr fun x first => ?_, fun _ => ?_⟩
    · rw [Option.getD_some, front'] at first
      obtain rfl := Option.some.inj first
      rcases mark' with rfl | rfl <;> decide
    · rw [Option.getD_some, front']
      exact fraction_eq_none (by rcases mark' with rfl | rfl <;> decide)
  · refine ⟨[], rfl, rfl, fun rest' alike => ?_⟩
    exact ⟨optional_of_eq_none (exponent_eq_none_of_alike alike), endsDigits_of_alike alike,
      fraction_eq_none_of_alike alike⟩

/-- The pieces of a number are its text, and they are read again. -/
theorem pieces_spec {cs rest : List Char} {p : Pieces} (h : pieces cs = some (p, rest)) :
    cs = p.chars ++ rest ∧
      ∀ rest', Alike rest rest' → pieces (p.chars ++ rest') = some (p, rest') := by
  obtain ⟨whole, t, first, h⟩ := bind_eq_some_iff.mp h
  obtain ⟨f, t', second, h⟩ := bind_eq_some_iff.mp h
  obtain ⟨e, t'', third, last⟩ := bind_eq_some_iff.mp h
  cases last
  obtain ⟨-, rfl, -⟩ := run1_eq_some_iff.mp first
  obtain ⟨w, written, rfl, again⟩ := optional_exponent_spec third
  -- A point without digits behind it is no fraction, and the number ends in front of it.
  rcases optional_eq_some_iff.mp second with ⟨digits, rfl, taken⟩ | ⟨rfl, failed, rfl⟩
  · cases t with
    | nil => cases taken
    | cons c t =>
      by_cases point : c = '.'
      · subst point
        rw [fraction_point] at taken
        obtain ⟨nonempty, rfl, -⟩ := run1_eq_some_iff.mp taken
        have chars : Pieces.chars ⟨whole, digits, e.getD ([], [], [])⟩ =
            whole ++ '.' :: (digits ++ w) := by
          simp [Pieces.chars, nonempty, written]
        simp only [Option.getD_some]
        rw [chars]
        refine ⟨by simp, fun rest' alike => ?_⟩
        obtain ⟨fourth, ends, -⟩ := again rest' alike
        have start : Scan.run1 Char.isDigit (whole ++ '.' :: (digits ++ (w ++ rest'))) =
            some (whole, '.' :: (digits ++ (w ++ rest'))) := by
          refine EndsDigits.run1 (.inr fun x first => ?_) first
          obtain rfl := Option.some.inj first
          decide
        have middle : Scan.optional fraction ('.' :: (digits ++ (w ++ rest'))) =
            some (some digits, w ++ rest') := by
          refine optional_of_eq_some ?_
          rw [fraction_point]
          exact ends.run1 taken
        simp only [List.append_assoc, List.cons_append]
        rw [pieces, bind_of_eq_some start, bind_of_eq_some middle, bind_of_eq_some fourth]
        rfl
      · rw [fraction_eq_none point] at taken
        cases taken
  · have chars : Pieces.chars ⟨whole, [], e.getD ([], [], [])⟩ = whole ++ w := by
      simp [Pieces.chars, written]
    simp only [Option.getD_none]
    rw [chars]
    refine ⟨by simp, fun rest' alike => ?_⟩
    obtain ⟨fourth, ends, none⟩ := again rest' alike
    have start := ends.run1 first
    rw [List.append_assoc, pieces, bind_of_eq_some start,
      bind_of_eq_some (optional_of_eq_none (none failed)), bind_of_eq_some fourth]
    rfl

/-- A number is read if its pieces are in the range of the numbers that there are. -/
theorem unsigned_eq_some_iff {cs a rest : List Char} :
    unsigned cs = some (a, rest) ↔ ∃ p, pieces cs = some (p, rest) ∧ p.inRange = true ∧
      a = p.chars := by
  rw [unsigned, bind_eq_some_iff]
  constructor
  · rintro ⟨p, t, first, second⟩
    obtain ⟨u, t', guarded, last⟩ := bind_eq_some_iff.mp second
    rw [guard_apply] at guarded
    cases ok : p.inRange with
    | false => simp [ok] at guarded
    | true =>
      simp only [ok, if_true, Option.some.injEq, Prod.mk.injEq] at guarded
      obtain ⟨-, rfl⟩ := guarded
      cases last
      exact ⟨p, first, ok, rfl⟩
  · rintro ⟨p, first, ok, rfl⟩
    refine ⟨p, rest, first, ?_⟩
    have guarded : (guard (p.inRange = true) : Scan Unit) rest = some ((), rest) := by
      rw [guard_apply, if_pos ok]
    rw [bind_of_eq_some guarded]
    rfl

/-- A number is read again in front of a rest that begins alike. -/
theorem replays_unsigned (n : Nat) : Replays n 0 True Gauge.text Alike unsigned := by
  intro cs a rest run
  obtain ⟨p, taken, ok, rfl⟩ := unsigned_eq_some_iff.mp run
  obtain ⟨split, again⟩ := pieces_spec taken
  refine ⟨p.chars, split, fun _ => ⟨by simp [Gauge.text], fun _ _ => ⟨trivial, ?_⟩⟩⟩
  exact fun rest' alike => unsigned_eq_some_iff.mpr ⟨p, again rest' alike, ok, rfl⟩

theorem leads_unsigned : Leads Char.isDigit unsigned :=
  Leads.bind (leads_run1 Char.isDigit).bind

theorem near_of_isDigit {newlines : Bool} {c d : Char} {t t' : List Char} (h : c.isDigit = true)
    (h' : d.isDigit = true) : Near newlines (c :: t) (d :: t') := by
  have hard : ∀ x : Char, x.isDigit = true → Blank.soft newlines x = false := by
    intro x digit
    simp only [Blank.soft, Blank.isSpace, Bool.or_eq_false_iff, Bool.and_eq_false_iff,
      beq_eq_false_iff_ne, ne_eq]
    refine ⟨⟨⟨?_, ?_⟩, ?_⟩, .inr ⟨⟨?_, ?_⟩, ?_⟩⟩ <;> rintro rfl <;> revert digit <;> decide
  exact near_of_hard (hard c h) (hard d h')

theorem replays_signed (n : Nat) : Replays n 0 True Gauge.text Alike signed := by
  refine Replays.lead_bind ?_
  refine Replays.bind (Blank.replays_gap n false) (fun gap => ?_)
    (fun gap a w rest rest' run run' _ => ?_)
  · refine (replays_unsigned n).bind_pure (fun digits => ?_) fun digits _ _ => by simp [Gauge.text]
    simp only [Gauge.text, weight_append]
    omega
  · obtain ⟨digits, t, first, -⟩ := bind_eq_some_iff.mp run
    obtain ⟨digits', t', first', -⟩ := bind_eq_some_iff.mp run'
    obtain ⟨c, u, digit, same⟩ := leads_unsigned _ _ first
    obtain ⟨c', u', digit', same'⟩ := leads_unsigned _ _ first'
    rw [same, same']
    exact near_of_isDigit digit digit'

theorem leads_signed : Leads (· == '-') signed :=
  (leads_exactly '-' []).bind

end Number

end TerraformPins.Hcl
