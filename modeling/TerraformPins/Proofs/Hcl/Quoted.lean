import TerraformPins.Hcl.Quoted
import TerraformPins.Proofs.Scan.Replay

/-!
# Replaying text inside quotes

The written form of a value is never heavier than the text it was read from. The two weigh the same
only if nothing was dropped, and then the text is read again in front of every rest that ends the
part in the same way.

What the writer wrote is read back, whatever the value.

## Main definitions

* `Quoted.Sharp` — two rests that do not change how literal text is read
* `Quoted.Meets` — two rests behind a literal part

## Main results

* `Quoted.replays_part` — a literal part is replayed
* `Quoted.part_encode` — what was written is read back
-/

namespace TerraformPins.Hcl.Quoted

open Scan

/-- Two rests behind literal text that do not change how it is read: they begin with the same mark
of an interpolation or a directive, or with the same other character. -/
def Sharp (rest rest' : List Char) : Prop :=
  (∃ c t t', (c ≠ '$' ∧ c ≠ '%' ∧ c ≠ '{') ∧ rest = c :: t ∧ rest' = c :: t') ∨
    ∃ c t t', (c = '$' ∨ c = '%') ∧ rest = c :: '{' :: t ∧ rest' = c :: '{' :: t'

theorem Sharp.head {r r' : List Char} (h : Sharp r r') (w : List Char) :
    (w ++ r).head? = (w ++ r').head? := by
  cases w with
  | cons c w => rfl
  | nil => rcases h with ⟨c, t, t', -, rfl, rfl⟩ | ⟨c, t, t', -, rfl, rfl⟩ <;> rfl

theorem Sharp.mark {r r' u : List Char} (h : Sharp r r') {w : List Char} {c : Char}
    (mark : c = '$' ∨ c = '%') (same : w ++ r' = c :: '{' :: u) :
    ∃ u', w ++ r = c :: '{' :: u' := by
  cases w with
  | nil =>
    rcases h with ⟨d, t, t', ⟨dollar, percent, -⟩, rfl, rfl⟩ | ⟨d, t, t', -, rfl, rfl⟩
    · obtain ⟨rfl, -⟩ := List.cons.inj same
      exact absurd mark (by simp [dollar, percent])
    · obtain ⟨rfl, -⟩ := List.cons.inj same
      exact ⟨t, rfl⟩
  | cons d w =>
    obtain ⟨rfl, tail⟩ := List.cons.inj same
    cases w with
    | cons e w =>
      obtain ⟨rfl, -⟩ := List.cons.inj tail
      exact ⟨w ++ r, rfl⟩
    | nil =>
      rcases h with ⟨e, t, t', ⟨-, -, brace⟩, rfl, rfl⟩ | ⟨e, t, t', other, rfl, rfl⟩
      · exact absurd (List.cons.inj tail).1 brace
      · obtain ⟨rfl, -⟩ := List.cons.inj tail
        exact absurd other (by decide)

/-- Two rests behind a literal part: the closing quote, or the same mark of an interpolation or a
directive. -/
def Meets (rest rest' : List Char) : Prop :=
  (∃ t t', rest = '"' :: t ∧ rest' = '"' :: t') ∨
    ∃ c t t', (c = '$' ∨ c = '%') ∧ rest = c :: '{' :: t ∧ rest' = c :: '{' :: t'

theorem Meets.sharp {r r' : List Char} (h : Meets r r') : Sharp r r' := by
  rcases h with ⟨t, t', rfl, rfl⟩ | marked
  · exact .inl ⟨'"', t, t', by decide, rfl, rfl⟩
  · exact .inr marked

/-! ### The weight of what is written -/

theorem weight_controlEscape : ∀ n, n < 128 →
    weight ['\\', 'u', '0', '0', hexDigit (n / 16), hexDigit (n % 16)] = 6 := by
  decide

/-- Only quotes, backslashes and control characters are escaped. -/
theorem weight_encodeChar (c : Char) :
    weight (encodeChar c) ≤ 6 ∧ (c ≠ '"' → c ≠ '\\' → weight (encodeChar c) ≤ heft c) := by
  by_cases control : c.toNat < 0x20 ∨ c.toNat = 0x7f
  · have six : weight (encodeChar c) ≤ 6 := by
      unfold encodeChar
      repeat' split
      all_goals first
        | decide
        | exact Nat.le_of_eq (weight_controlEscape c.toNat (by omega))
    -- A control character weighs more than its longest escape.
    have eight : heft c = 8 := by
      have space : c ≠ ' ' := by
        rintro rfl
        revert control
        decide
      rw [heft, if_neg space, if_pos control]
    exact ⟨six, fun _ _ => by omega⟩
  · have light : c ≠ '"' → c ≠ '\\' → encodeChar c = [c] := by
      intro quote backslash
      unfold encodeChar
      repeat' split
      all_goals first
        | rfl
        | contradiction
        | (subst_vars; exact absurd (by decide) control)
    by_cases quote : c = '"'
    · subst quote
      exact ⟨by decide, fun ne => absurd rfl ne⟩
    by_cases backslash : c = '\\'
    · subst backslash
      exact ⟨by decide, fun _ ne => absurd rfl ne⟩
    rw [light quote backslash]
    refine ⟨?_, fun _ _ => by simp⟩
    have : heft c ≤ 1 := by
      rw [heft, if_neg control]
      split <;> omega
    simp only [weight_cons, weight_nil]
    omega

theorem escaped?_eq_some {c x : Char} (h : escaped? c = some x) :
    weight (encodeChar x) ≤ 2 ∧ 1 ≤ heft c ∧ x ≠ '$' ∧ x ≠ '%' ∧ x ≠ '{' := by
  unfold escaped? at h
  repeat' split at h
  case isFalse.isFalse.isFalse.isFalse.isFalse.isTrue marks =>
    cases h
    rcases marks with rfl | rfl | rfl <;> decide
  case isFalse.isFalse.isFalse.isFalse.isFalse.isFalse => cases h
  all_goals
    cases h
    subst_vars
    decide

theorem hexValue?_eq_some {c : Char} {n : Nat} (h : hexValue? c = some n) : heft c = 1 := by
  have range : 0x30 ≤ c.toNat ∧ c.toNat ≤ 0x66 := by
    unfold hexValue? at h
    split at h
    case isTrue bounds => exact ⟨bounds.1, Nat.le_trans bounds.2 (by decide)⟩
    split at h
    case isTrue bounds => exact ⟨Nat.le_trans (by decide) bounds.1, bounds.2⟩
    split at h
    case isTrue bounds =>
      exact ⟨Nat.le_trans (by decide) bounds.1, Nat.le_trans bounds.2 (by decide)⟩
    cases h
  have space : c ≠ ' ' := by
    rintro rfl
    revert range
    decide
  rw [heft, if_neg space, if_neg (by omega)]

/-- The digits of a code point weigh one each. -/
theorem codePoint?_eq_some {digits : List Char} {x : Char} (h : codePoint? digits = some x) :
    weight digits = digits.length := by
  obtain ⟨n, number, -⟩ := Option.bind_eq_some_iff.mp h
  clear h
  unfold hexNumber? at number
  generalize (0 : Nat) = start at number
  induction digits generalizing start with
  | nil => rfl
  | cons c digits ih =>
    rw [List.foldlM_cons] at number
    obtain ⟨m, first, more⟩ := Option.bind_eq_some_iff.mp number
    obtain ⟨v, value, -⟩ := Option.map_eq_some_iff.mp first
    rw [weight_cons, ih _ more, hexValue?_eq_some value, List.length_cons, Nat.add_comm]

theorem encode_cons {x : Char} {v : List Char}
    (h : v.head? ≠ some '{' ∨ (x ≠ '$' ∧ x ≠ '%')) :
    encode (x :: v) = encodeChar x ++ encode v := by
  rw [encode]
  · rintro u rfl rfl
    simp at h
  · rintro u rfl rfl
    simp at h

/-- A mark in front of a brace costs one more. -/
theorem weight_encode_cons_le (x : Char) (v : List Char) :
    weight (encode (x :: v)) ≤ weight (encodeChar x) + 1 + weight (encode v) := by
  by_cases h : v.head? ≠ some '{' ∨ (x ≠ '$' ∧ x ≠ '%')
  · rw [encode_cons h, weight_append]
    omega
  · simp only [not_or, not_and, Decidable.not_not] at h
    obtain ⟨brace, mark⟩ := h
    obtain ⟨u, rfl⟩ := List.head?_eq_some_iff.mp brace
    have open_ : weight (encode ('{' :: u)) = 1 + weight (encode u) := by
      rw [encode_cons (.inr (by decide)), weight_append]
      rfl
    have one : heft '$' = 1 ∧ heft '%' = 1 ∧ heft '{' = 1 := by decide
    rw [open_]
    by_cases dollar : x = '$'
    · subst dollar
      have plain : weight (encodeChar '$') = 1 := by decide
      simp only [encode, weight_cons]
      omega
    · obtain rfl := mark dollar
      have plain : weight (encodeChar '%') = 1 := by decide
      simp only [encode, weight_cons]
      omega

/-! ### Reading a part -/

/-- A character that begins neither an escape nor a mark stands for itself. -/
theorem decode_plain {begun : Bool} {c : Char} {t : List Char} (quote : c ≠ '"')
    (backslash : c ≠ '\\')
    (free : ∀ m, m = '$' ∨ m = '%' → c = m → ∀ u, t ≠ '{' :: u ∧ t ≠ m :: '{' :: u) :
    decode begun (c :: t) = (decode true t).map fun y => (c :: y.1, y.2) := by
  rw [decode]
  · exact quote
  · exact fun u mark brace => (free '$' (.inl rfl) mark u).1 brace
  · exact fun u mark brace => (free '%' (.inr rfl) mark u).1 brace
  · exact fun u mark marks => (free '$' (.inl rfl) mark u).2 marks
  · exact fun u mark marks => (free '%' (.inr rfl) mark u).2 marks
  · exact fun _ mark => absurd mark backslash
  · exact fun _ mark => absurd mark backslash
  · exact fun _ _ mark => absurd mark backslash
  · exact fun mark => absurd mark backslash

/-- An escape of one character. -/
theorem decode_escape {begun : Bool} {c x : Char} (four : c ≠ 'u') (eight : c ≠ 'U')
    (ok : escaped? c = some x) (t : List Char) :
    decode begun ('\\' :: c :: t) = (decode true t).map fun y => (x :: y.1, y.2) := by
  rw [decode]
  · simp only [ok]
  · exact four
  · exact eight

/-- What is to be shown of a part that was read. -/
def Kept (begun : Bool) (cs v r : List Char) : Prop :=
  ∃ w, cs = w ++ r ∧ v.length ≤ w.length ∧ weight (encode v) ≤ weight w ∧
    (v.head? = some '{' → w.head? ≠ some '{' → weight (encode v) + 5 ≤ weight w) ∧
    (weight w ≤ weight (encode v) → decode false r = none ∧
      ∀ r', Meets r r' → decode begun (w ++ r') = some (v, r'))

/-- The end of a part takes nothing. -/
theorem kept_nil {begun : Bool} {r : List Char} (stops : decode false r = none)
    (again : ∀ r', Meets r r' → decode begun r' = some ([], r')) : Kept begun r [] r :=
  ⟨[], rfl, Nat.le_refl _, Nat.le_refl _, nofun, fun _ => ⟨stops, again⟩⟩

/-- What is dropped weighs something. -/
theorem kept_drop {begun : Bool} {c d : Char} {r : List Char} (heavy : 1 ≤ heft c) :
    Kept begun (c :: d :: r) [] r := by
  refine ⟨[c, d], rfl, Nat.zero_le _, ?_, nofun, fun tight => ?_⟩
  · simp [encode]
  · simp [encode] at tight
    omega

/-- A character that is read from `u`. Its written form is lighter than `u`, or follows it. -/
theorem Kept.cons {begun : Bool} {u t v r : List Char} {x : Char} (h : Kept true t v r)
    (heavy : weight (encodeChar x) ≤ weight u)
    (brace : x = '{' → u.head? ≠ some '{' → weight (encodeChar x) + 5 ≤ weight u)
    (mark : x = '$' ∨ x = '%' → weight (encodeChar x) + 5 ≤ weight u ∨ t.head? ≠ some '{')
    (nonempty : u ≠ [])
    (again : ∀ w r', t = w ++ r → Meets r r' → decode begun (u ++ (w ++ r')) =
      (decode true (w ++ r')).map fun y => (x :: y.1, y.2)) :
    Kept begun (u ++ t) (x :: v) r := by
  obtain ⟨w, rfl, long, light, open_, replay⟩ := h
  have some_ := List.length_pos_iff.mpr nonempty
  have more := weight_encode_cons_le x v
  have exact_ := encode_cons (x := x) (v := v)
  by_cases marked : (x = '$' ∨ x = '%') ∧ v.head? = some '{'
  · -- the brace of the value was written in a longer way, or the mark was
    obtain ⟨isMark, isBrace⟩ := marked
    have strict : weight (encode (x :: v)) < weight u + weight w := by
      rcases mark isMark with longer | other
      · omega
      · have := open_ isBrace fun first => other (by cases w <;> simp_all)
        omega
    refine ⟨u ++ w, by simp, by simp; omega, by rw [weight_append]; omega, ?_, ?_⟩
    · rintro first
      obtain rfl := Option.some.inj first
      exact absurd isMark (by decide)
    · rw [weight_append]
      exact fun tight => absurd tight (by omega)
  · have plain : weight (encode (x :: v)) = weight (encodeChar x) + weight (encode v) := by
      rw [exact_, weight_append]
      by_cases isBrace : v.head? = some '{'
      · exact .inr (by simpa [isBrace] using marked)
      · exact .inl isBrace
    refine ⟨u ++ w, by simp, by simp; omega, by rw [weight_append]; omega, ?_, ?_⟩
    · intro first other
      have := brace (Option.some.inj first) (by cases u <;> simp_all)
      rw [weight_append]
      omega
    · rw [weight_append]
      intro tight
      obtain ⟨stops, more⟩ := replay (by omega)
      refine ⟨stops, fun r' meets => ?_⟩
      rw [List.append_assoc, again w r' rfl meets, more r' meets]
      rfl

/-- A doubled mark in front of a brace. -/
theorem Kept.mark {begun : Bool} {c : Char} {t v r : List Char} (h : Kept true t v r)
    (mark : c = '$' ∨ c = '%')
    (again : ∀ t', decode begun (c :: c :: '{' :: t') =
      (decode true t').map fun y => (c :: '{' :: y.1, y.2)) :
    Kept begun (c :: c :: '{' :: t) (c :: '{' :: v) r := by
  obtain ⟨w, rfl, long, light, -, replay⟩ := h
  have written : encode (c :: '{' :: v) = c :: c :: '{' :: encode v := by
    rcases mark with rfl | rfl <;> rw [encode]
  refine ⟨c :: c :: '{' :: w, rfl, by simp; omega, ?_, ?_, fun tight => ?_⟩
  · simp only [written, weight_cons]
    omega
  · rintro first
    obtain rfl := Option.some.inj first
    exact absurd mark (by decide)
  · simp only [written, weight_cons] at tight
    obtain ⟨stops, more⟩ := replay (by omega)
    refine ⟨stops, fun r' meets => ?_⟩
    simp only [List.cons_append]
    rw [again, more r' meets]
    rfl

/-- A character written by its code point. -/
theorem Kept.point {begun : Bool} {letter : Char} {digits t v r : List Char} {x : Char}
    (h : Kept true t v r) (point : codePoint? digits = some x) (enough : 4 ≤ digits.length)
    (heavy : heft letter = 1)
    (again : ∀ t', decode begun ('\\' :: letter :: digits ++ t') =
      (decode true t').map fun y => (x :: y.1, y.2)) :
    Kept begun ('\\' :: letter :: digits ++ t) (x :: v) r := by
  have bound := (weight_encodeChar x).1
  have digitsToo := codePoint?_eq_some point
  have backslash : heft '\\' = 1 := by decide
  have total : 6 ≤ weight ('\\' :: letter :: digits) := by
    simp only [weight_cons]
    omega
  refine h.cons (by omega) ?_ ?_ (by simp) fun w r' _ _ => again _
  · rintro rfl -
    exact total
  · rintro (rfl | rfl)
    · exact .inl total
    · exact .inl total

theorem Kept.escape {begun : Bool} {c x : Char} {t v r : List Char} (h : Kept true t v r)
    (four : c ≠ 'u') (eight : c ≠ 'U') (ok : escaped? c = some x) :
    Kept begun ('\\' :: c :: t) (x :: v) r := by
  obtain ⟨light, heavy, dollar, percent, brace⟩ := escaped?_eq_some ok
  have backslash : heft '\\' = 1 := by decide
  refine h.cons (u := ['\\', c]) ?_ (fun same => absurd same brace)
    (fun same => absurd same (by simp [dollar, percent])) (by simp) fun w r' _ _ =>
      decode_escape four eight ok _
  simp only [weight_cons, weight_nil]
  omega

/-- A character that stands for itself. Behind a mark no brace was read, and none is printed. -/
theorem Kept.plain {begun : Bool} {c : Char} {t v r : List Char} (h : Kept true t v r)
    (quote : c ≠ '"') (backslash : c ≠ '\\')
    (free : ∀ m, m = '$' ∨ m = '%' → c = m → ∀ u, t ≠ '{' :: u ∧ t ≠ m :: '{' :: u) :
    Kept begun (c :: t) (c :: v) r := by
  have light := (weight_encodeChar c).2 quote backslash
  refine h.cons (u := [c]) (by simpa using light) (fun same other => ?_) (fun mark => ?_)
    (by simp) fun w r' split meets => ?_
  · subst same
    exact absurd rfl other
  · refine .inr fun brace => ?_
    obtain ⟨u, same⟩ := List.head?_eq_some_iff.mp brace
    exact (free c mark rfl u).1 same
  · refine decode_plain quote backslash fun m mark same u => ⟨fun brace => ?_, fun marks => ?_⟩
    · have front : w ++ r' = '{' :: u := brace
      have first := meets.sharp.head w
      rw [← split, front] at first
      obtain ⟨v, inside⟩ := List.head?_eq_some_iff.mp first
      exact (free m mark same v).1 inside
    · obtain ⟨u', back⟩ := meets.sharp.mark mark marks
      exact (free m mark same u').2 (split.trans back)

theorem kept_of_decode {begun : Bool} {cs v r : List Char} (h : decode begun cs = some (v, r)) :
    Kept begun cs v r := by
  -- The cases are those of the reader: the ends of a part, the escapes, and a plain character.
  induction begun, cs using decode.induct generalizing v with
  | case1 | case3 | case5 | case7 =>
    simp only [decode, if_true, Option.some.injEq, Prod.mk.injEq] at h
    obtain ⟨rfl, rfl⟩ := h
    refine kept_nil rfl fun r' meets => ?_
    rcases meets with ⟨u, u', same, rfl⟩ | ⟨c, u, u', mark, same, rfl⟩
    · simp only [decode, if_true]
    · rcases mark with rfl | rfl <;> simp only [decode, if_true]
  | case2 begun fresh | case4 begun _ fresh | case6 begun _ fresh | case8 begun _ fresh =>
    simp [decode, fresh] at h
  | case9 begun t ih | case10 begun t ih =>
    rw [decode] at h
    obtain ⟨⟨v', r'⟩, inner, same⟩ := Option.map_eq_some_iff.mp h
    cases same
    refine (ih inner).mark (by decide) fun t' => ?_
    rw [decode]
  | case11 begun a b c d t x point ih =>
    simp only [decode, point] at h
    obtain ⟨⟨v', r'⟩, inner, same⟩ := Option.map_eq_some_iff.mp h
    cases same
    refine @Kept.point begun 'u' [a, b, c, d] t v' r' x (ih inner) point (by simp)
      (by decide) fun t' => ?_
    simp only [List.cons_append, List.nil_append, decode, point]
  | case16 begun a b c d e f g i t x point ih =>
    simp only [decode, point] at h
    obtain ⟨⟨v', r'⟩, inner, same⟩ := Option.map_eq_some_iff.mp h
    cases same
    refine @Kept.point begun 'U' [a, b, c, d, e, f, g, i] t v' r' x (ih inner) point (by simp)
      (by decide) fun t' => ?_
    simp only [List.cons_append, List.nil_append, decode, point]
  | case12 a b c d t point | case17 a b c d e f g i t point =>
    simp only [decode, point, if_true, Option.some.injEq, Prod.mk.injEq] at h
    obtain ⟨rfl, rfl⟩ := h
    exact kept_drop (by decide)
  | case14 t short | case19 t short =>
    rw [decode] at h
    case x_2 => exact short
    simp only [if_true, Option.some.injEq, Prod.mk.injEq] at h
    obtain ⟨rfl, rfl⟩ := h
    exact kept_drop (by decide)
  | case13 begun a b c d t point fresh | case18 begun a b c d e f g i t point fresh =>
    simp [decode, point, fresh] at h
  | case15 begun t fresh short | case20 begun t fresh short =>
    rw [decode] at h
    case x_2 => exact short
    simp [fresh] at h
  | case21 begun c t notU notV x ok ih =>
    rw [decode_escape notU notV ok] at h
    obtain ⟨⟨v', r'⟩, inner, same⟩ := Option.map_eq_some_iff.mp h
    cases same
    exact (ih inner).escape notU notV ok
  | case22 begun c t notU notV bad may =>
    rw [decode] at h
    case x_1 => exact notU
    case x_2 => exact notV
    simp only [bad, may, and_self, if_true, Option.some.injEq, Prod.mk.injEq] at h
    obtain ⟨rfl, rfl⟩ := h
    exact kept_drop (by decide)
  | case23 begun c t notU notV bad may =>
    rw [decode] at h
    case x_1 => exact notU
    case x_2 => exact notV
    simp [bad, may] at h
  | case24 => cases h
  | case25 begun c t quote dollar percent dollars percents u v' other last ih =>
    have backslash : c ≠ '\\' := by
      rintro rfl
      cases t with
      | nil => exact last rfl rfl
      | cons d t => exact other d t rfl rfl
    have free : ∀ m, m = '$' ∨ m = '%' → c = m → ∀ u, t ≠ '{' :: u ∧ t ≠ m :: '{' :: u := by
      rintro m (rfl | rfl) rfl u
      · exact ⟨fun same => dollar u rfl same, fun same => dollars u rfl same⟩
      · exact ⟨fun same => percent u rfl same, fun same => percents u rfl same⟩
    rw [decode_plain quote backslash free] at h
    obtain ⟨⟨v', r'⟩, inner, same⟩ := Option.map_eq_some_iff.mp h
    cases same
    exact (ih inner).plain quote backslash free

/-- The gauge of a value by what is written for it. -/
def written : Gauge (List Char) :=
  ⟨fun v => weight (encode v), fun _ => True⟩

theorem replays_part (n : Nat) :
    Replays n 0 True written (fun r r' => part r = none → Meets r r') part := by
  intro cs v r run
  obtain ⟨w, split, -, light, -, replay⟩ := kept_of_decode run
  refine ⟨w, split, fun _ => ⟨by simpa [written] using light, fun tight _ => ⟨trivial, ?_⟩⟩⟩
  obtain ⟨stops, again⟩ := replay (by simpa [written] using tight)
  exact fun r' meets => again r' (meets stops)

theorem part_eq_none_quote (t : List Char) : part ('"' :: t) = none := rfl

theorem part_eq_none_mark {c : Char} (mark : c = '$' ∨ c = '%') (t : List Char) :
    part (c :: '{' :: t) = none := by
  rcases mark with rfl | rfl <;> rfl

/-- A part that has not begun has a first character. -/
theorem part_ne_nil {cs r : List Char} : part cs ≠ some ([], r) := by
  intro run
  rw [part] at run
  generalize begins : false = begun at run
  revert run
  fun_cases decode begun cs
  all_goals simp_all

theorem advances_part : Advances part := by
  intro cs v r run
  obtain ⟨w, rfl, long, -⟩ := kept_of_decode run
  have some_ : 0 < v.length := by
    refine List.length_pos_iff.mpr fun none => part_ne_nil (none ▸ run)
  rw [List.length_append]
  omega

/-! ### Reading what was written -/

theorem codePoint?_control : ∀ n, n < 128 →
    codePoint? ['0', '0', hexDigit (n / 16), hexDigit (n % 16)] = some (Char.ofNat n) := by
  decide

/-- The written form of a character begins with a brace only if the character is one. -/
theorem head_encodeChar (c : Char) :
    ∃ d u, encodeChar c = d :: u ∧ (d = '\\' ∨ (d = c ∧ u = [] ∧ c ≠ '"' ∧ c ≠ '\\')) := by
  unfold encodeChar
  repeat' split
  all_goals first
    | exact ⟨_, _, rfl, .inl rfl⟩
    | exact ⟨c, [], rfl, .inr ⟨rfl, rfl, ‹_›, ‹_›⟩⟩

theorem encode_ne_brace {v t : List Char} (h : v.head? ≠ some '{') (u : List Char) :
    encode v ++ '"' :: t ≠ '{' :: u := by
  fun_cases encode v
  case case1 => simp
  case case2 => simp
  case case3 => simp
  case case4 c v dollar percent =>
    obtain ⟨d, w, same, kind⟩ := head_encodeChar c
    rw [same]
    intro brace
    obtain rfl := (List.cons.inj brace).1
    rcases kind with backslash | ⟨rfl, -⟩
    · exact absurd backslash (by decide)
    · exact h rfl

/-- A mark is not doubled unless a brace follows. -/
theorem encode_ne_marks {v t : List Char} {m : Char} (mark : m = '$' ∨ m = '%') (u : List Char) :
    encode v ++ '"' :: t ≠ m :: '{' :: u := by
  fun_cases encode v
  case case1 => rcases mark with rfl | rfl <;> simp
  case case2 => simp
  case case3 => simp
  case case4 c v dollar percent =>
    obtain ⟨d, w, same, kind⟩ := head_encodeChar c
    rw [same]
    intro marks
    obtain ⟨rfl, tail⟩ := List.cons.inj marks
    rcases kind with rfl | ⟨rfl, rfl, -⟩
    · exact absurd mark (by decide)
    · refine encode_ne_brace (fun brace => ?_) u tail
      obtain ⟨w, rfl⟩ := List.head?_eq_some_iff.mp brace
      rcases mark with rfl | rfl
      · exact dollar w rfl rfl
      · exact percent w rfl rfl

/-- A character that was written is read back. -/
theorem decode_encodeChar {begun : Bool} {c : Char} {t : List Char}
    (free : ∀ m, m = '$' ∨ m = '%' → c = m → ∀ u, t ≠ '{' :: u ∧ t ≠ m :: '{' :: u) :
    decode begun (encodeChar c ++ t) = (decode true t).map fun y => (c :: y.1, y.2) := by
  unfold encodeChar
  repeat' split
  case isFalse.isFalse.isFalse.isFalse.isFalse.isFalse.isFalse.isTrue control =>
    have digits := codePoint?_control c.toNat (by omega)
    simp only [List.cons_append, List.nil_append, decode, digits, Char.ofNat_toNat]
  case isFalse.isFalse.isFalse.isFalse.isFalse.isFalse.isFalse.isFalse =>
    exact decode_plain ‹_› ‹_› free
  all_goals
    subst_vars
    simp [decode, escaped?]

theorem decode_encode {begun : Bool} {v : List Char} (ok : begun = true ∨ v ≠ []) (t : List Char) :
    decode begun (encode v ++ '"' :: t) = some (v, '"' :: t) := by
  induction v using encode.induct generalizing begun with
  | case1 =>
    obtain rfl := ok.resolve_right (by simp)
    rfl
  | case2 v ih | case3 v ih =>
    rw [encode, List.cons_append, List.cons_append, List.cons_append, decode, ih (.inl rfl)]
    rfl
  | case4 c v dollar percent ih =>
    have brace : ∀ m, m = '$' ∨ m = '%' → c = m → v.head? ≠ some '{' := by
      intro m mark same first
      obtain ⟨u, rfl⟩ := List.head?_eq_some_iff.mp first
      rcases mark with rfl | rfl
      · exact dollar u same rfl
      · exact percent u same rfl
    rw [encode]
    · rw [List.append_assoc, decode_encodeChar fun m mark same u =>
        ⟨encode_ne_brace (brace m mark same) u, encode_ne_marks mark u⟩, ih (.inl rfl)]
      rfl
    · exact dollar
    · exact percent

theorem part_encode {v : List Char} (nonempty : v ≠ []) (t : List Char) :
    part (encode v ++ '"' :: t) = some (v, '"' :: t) :=
  decode_encode (.inr nonempty) t

end TerraformPins.Hcl.Quoted
