import TerraformPins.Proofs.Hcl.Readable

/-!
# Objects taken apart

An expression in braces whose text is the text of an object was read entry by entry, each entry from
its own text: its key in front of the sign, its value in front of what ends the entry. That nothing
else is possible follows from the weights, since each piece weighs at most as much as the text that
it was read from.

## Main definitions

* `Node.Other` — an expression other than an object
* `Grammar.Signed` — a rest that begins with the sign of an entry
* `Entry.Sound` — an entry whose pieces are read wherever they stand

## Main results

* `Grammar.entries_of_object` — the entries of an object are read from their own texts
* `Node.asRead_of_nested` — what was read is read back as it is
-/

namespace TerraformPins.Hcl

open Scan Grammar Reader

/-- An expression other than an object. -/
def Node.Other (node : Node) : Prop :=
  ∀ entries closing, node ≠ .object entries closing

namespace Grammar

/-! ### From an expression to the entries of an object -/

theorem conditional_of_question (newlines : Bool) (first : Node) :
    (question nested newlines first).Yields fun node =>
      ∃ condition yes no, node = .conditional condition yes no :=
  .bind fun _ => .bind fun _ => .bind fun _ => .bind fun _ => .bind fun _ => .pure ⟨_, _, _, rfl⟩

theorem binary_of_operator (newlines : Bool) (first : Node) :
    (operator nested newlines first).Yields fun node =>
      ∃ left op right, node = .binary left op right :=
  .bind fun _ => .bind fun _ => .bind fun _ => .pure ⟨_, _, _, rfl⟩

/-- An operation is a conditional, two operands, or the value in front of it. -/
theorem operation_cases {newlines : Bool} {first node : Node} {cs r : Chars}
    (run : operation nested newlines first cs = some (node, r)) :
    (∃ condition yes no, node = .conditional condition yes no) ∨
      (∃ left op right, node = .binary left op right) ∨ (node = first ∧ r = cs) := by
  rw [operation_eq] at run
  rcases orElse_eq_some_iff.mp run with question | ⟨-, run⟩
  · exact .inl (conditional_of_question newlines first _ _ _ question)
  rcases orElse_eq_some_iff.mp run with operator | ⟨-, last⟩
  · exact .inr (.inl (binary_of_operator newlines first _ _ _ operator))
  · cases last
    exact .inr (.inr ⟨rfl, rfl⟩)

/-- A term that begins with a brace is an object or a loop. -/
theorem object_of_term {u r : Chars} {base : Node} {grouped : Bool}
    (run : term nested ('{' :: u) = some ((base, grouped), r)) :
    grouped = false ∧ object nested ('{' :: u) = some (base, r) := by
  rcases term_cases run with ⟨-, taken⟩ | ⟨plain, taken⟩
  · rw [leads_group.eq_none (by decide)] at taken
    cases taken
  refine ⟨plain, ?_⟩
  rcases taken with taken | taken | taken | ⟨cs, -, taken | taken⟩ | taken | taken
  · rw [leads_quoted.eq_none (by decide)] at taken
    cases taken
  · rw [leads_list.eq_none (by decide)] at taken
    cases taken
  · exact taken
  · rw [Number.leads_unsigned.eq_none (by decide)] at taken
    cases taken
  · rw [Number.leads_signed.eq_none (by decide)] at taken
    cases taken
  · rw [leads_heredoc.eq_none (by decide)] at taken
    cases taken
  · rw [leads_nameOrCall.eq_none (by decide)] at taken
    cases taken

/-- If an expression in braces is an object, nothing stands in front of the brace or behind the
other one. -/
theorem object_of_nested {u r : Chars} {entries : List Entry} {closing : Chars}
    (run : nested false ('{' :: u) = some (.object entries closing, r)) :
    object nested ('{' :: u) = some (.object entries closing, r) := by
  obtain ⟨ops, t, ⟨base, grouped⟩, v, signs, first, tail⟩ := nested_eq_some_iff.mp run
  rw [many_unaryOp_nil (leads_unaryOp.eq_none (by decide))] at signs
  cases signs
  obtain ⟨rfl, taken⟩ := object_of_term first
  obtain ⟨steps, w, repeated, more⟩ := bind_eq_some_iff.mp tail
  rcases operation_cases more with ⟨_, _, _, same⟩ | ⟨_, _, _, same⟩ | ⟨same, rfl⟩
  · cases same
  · cases same
  · cases many_iff_chain.mp repeated with
    | nil =>
      rw [show base = .object entries closing from same.symm] at taken
      exact taken
    | cons => cases same

/-- An object with nothing behind it is an expression. -/
theorem nested_of_object {u r : Chars} {node : Node}
    (run : object nested ('{' :: u) = some (node, r)) (calm : Calm (Blank.skip false r)) :
    nested false ('{' :: u) = some (node, r) := by
  have noSign : unaryOp ('{' :: u) = none := leads_unaryOp.eq_none (by decide)
  have noGroup : group nested ('{' :: u) = none := leads_group.eq_none (by decide)
  have noQuoted : quoted nested ('{' :: u) = none := leads_quoted.eq_none (by decide)
  have noList : list nested ('{' :: u) = none := leads_list.eq_none (by decide)
  have first : term nested ('{' :: u) = some ((node, false), r) := by
    rw [term, orElse_of_eq_none (by rw [map_apply, noGroup]; rfl), map_apply,
      orElse_of_eq_none noQuoted, orElse_of_eq_none noList, orElse_of_eq_some run]
    rfl
  have stops : step nested false r = none := step_eq_none calm.noIndex calm.noDot
  have steps : Scan.many (step nested false) r = some ([], r) :=
    many_eq_some_of_chain (.nil fun a t taken => by rw [stops] at taken; cases taken)
  refine nested_eq_some_iff.mpr ⟨[], _, _, r, many_unaryOp_nil noSign, first, ?_⟩
  rw [termTail, Bool.or_self, bind_of_eq_some steps, operation_eq,
    orElse_of_eq_none (question_eq_none calm.noQuestion),
    orElse_of_eq_none (operator_eq_none calm.noOperator)]
  rfl

theorem other_objectForTail : (objectForTail nested).Yields Node.Other :=
  .bind fun _ => .bind fun _ => .bind fun _ => .bind fun _ => .bind fun _ => .bind fun _ =>
    .bind fun _ => .bind fun _ => .pure nofun

/-- What is in the braces of an object. -/
theorem object_eq_some_iff {u r : Chars} {entries : List Entry} {closing : Chars} :
    object nested ('{' :: u) = some (.object entries closing, r) ↔
      beginsLoop u = false ∧ ∃ found t, Scan.many (entry nested) u = some (found, t) ∧
        Entry.distinct found = entries ∧ Blank.gap true t = some (closing, '}' :: r) := by
  constructor
  · intro run
    obtain ⟨t, same, more⟩ := exactly_bind_eq_some_iff.mp run
    obtain ⟨-, rfl⟩ := List.cons.inj same
    rw [seesLoop_eq] at more
    obtain ⟨loops, t', looked, more⟩ := bind_eq_some_iff.mp more
    cases looked
    -- What begins like a loop is no object, even where the loop cannot be read.
    cases loops : beginsLoop u with
    | true =>
      rw [loops, if_pos rfl] at more
      exact absurd rfl (other_objectForTail _ _ _ more entries closing)
    | false =>
      rw [loops] at more
      obtain ⟨found, t, repeated, more⟩ := bind_eq_some_iff.mp more
      obtain ⟨b, gap, same⟩ := closing_eq_some_iff.mp more
      cases same
      exact ⟨rfl, found, t, repeated, rfl, gap⟩
  · rintro ⟨loops, found, t, repeated, rfl, gap⟩
    refine exactly_bind_eq_some_iff.mpr ⟨u, rfl, ?_⟩
    rw [seesLoop_eq]
    refine bind_eq_some_iff.mpr ⟨false, u, by rw [loops], ?_⟩
    exact bind_eq_some_iff.mpr ⟨found, t, repeated, closing_eq_some_iff.mpr ⟨closing, gap, rfl⟩⟩

/-! ### Pieces of an entry -/

theorem behindValue_eq_some_iff {cs a r : Chars} {stop : Stop} :
    behindValue cs = some ((a, stop), r) ↔ ∃ after t comment, Blank.gap false cs = some (after, t) ∧
      entryStop t = some ((comment, stop), r) ∧ a = after ++ comment := by
  rw [behindValue, bind_eq_some_iff]
  constructor
  · rintro ⟨after, t, gap, more⟩
    obtain ⟨⟨comment, stop⟩, u, stopped, last⟩ := bind_eq_some_iff.mp more
    cases last
    exact ⟨after, t, comment, gap, stopped, rfl⟩
  · rintro ⟨after, t, comment, gap, stopped, rfl⟩
    exact ⟨after, t, gap, bind_eq_some_iff.mpr ⟨(comment, stop), r, stopped, rfl⟩⟩

/-- An entry is read if its pieces are. -/
theorem entry_eq_some_iff {cs rest : Chars} {e : Entry} :
    entry nested cs = some (e, rest) ↔ ∃ key sign X b V node Y after stop,
      between Blank.across (nested false) Blank.inline cs = some (key, Sign.chars sign ++ X) ∧
        Blank.inline X = some (b, V) ∧ nested false V = some (node, Y) ∧
        behindValue Y = some ((after, stop), rest) ∧
        e = .mk key sign (.mk (.written b after) node) stop := by
  rw [entry_eq, bind_eq_some_iff]
  constructor
  · rintro ⟨key, t, keyRead, more⟩
    obtain ⟨sign, X, signed, more⟩ := bind_eq_some_iff.mp more
    obtain ⟨b, V, gap, more⟩ := bind_eq_some_iff.mp more
    obtain ⟨node, Y, value, more⟩ := bind_eq_some_iff.mp more
    obtain ⟨after, t, comment, stop, gap', stopped, rfl⟩ := entryEnd_eq_some_iff.mp more
    rw [sign_eq_some_iff.mp signed] at keyRead
    exact ⟨key, sign, X, b, V, node, Y, _, stop, keyRead, gap, value,
      behindValue_eq_some_iff.mpr ⟨after, t, comment, gap', stopped, rfl⟩, rfl⟩
  · rintro ⟨key, sign, X, b, V, node, Y, _, stop, keyRead, gap, value, behind, rfl⟩
    obtain ⟨after, t, comment, gap', stopped, rfl⟩ := behindValue_eq_some_iff.mp behind
    refine ⟨key, _, keyRead, bind_eq_some_iff.mpr ⟨sign, X, sign_eq_some_iff.mpr rfl, ?_⟩⟩
    refine bind_eq_some_iff.mpr ⟨b, V, gap, bind_eq_some_iff.mpr ⟨node, Y, value, ?_⟩⟩
    exact entryEnd_eq_some_iff.mpr ⟨after, t, comment, stop, gap', stopped, rfl⟩

/-- A rest that begins with the sign of an entry. -/
def Signed (t : Chars) : Prop :=
  (∃ s u, t = Sign.chars s ++ u) ∧ Firm t

theorem Signed.closes {t t' : Chars} (h : Signed t) (h' : Signed t') : Closes t t' := by
  obtain ⟨⟨s, u, rfl⟩, firm⟩ := h
  obtain ⟨⟨s', u', rfl⟩, firm'⟩ := h'
  exact closes_of_sign firm firm'

end Grammar

/-- The text of a key weighs as much as that of the expression. -/
theorem weight_entryKeyChars (key : Expr) : weight (entryKeyChars key) = weight (key.chars []) := by
  obtain ⟨⟨before, after⟩, node⟩ := key
  have blank : heft ' ' = 0 := by decide
  cases after <;> simp [entryKeyChars, Expr.chars, Layout.around, blank]

theorem Entry.chars_eq (e : Entry) :
    e.chars = entryKeyChars e.key ++ (e.sign.chars ++ (e.value.chars [' '] ++ e.stop.chars)) := by
  obtain ⟨key, sign, value, stop⟩ := e
  simp [Entry.chars, Entry.key, Entry.sign, Entry.value, Entry.stop]

/-- What may stand between a value and what ends its entry. -/
def Stop.Ends : Stop → Chars → Prop
  | .newline => Trails
  | .comma => Blank.Fills false
  | .brace => Blank.Fills false

/-- What has to follow behind an entry. -/
def Stop.Meets : Stop → Chars → Prop
  | .newline => fun t => Calm (Blank.skip true t)
  | .comma => fun _ => True
  | .brace => Closed

/-- An entry whose pieces are read wherever they stand. -/
structure Entry.Sound (e : Entry) : Prop where
  lead : Blank.Fills true (e.key.layout.before.getD [])
  head : ∃ c u, e.key.node.chars = c :: u ∧ isStart c = true
  key : (between Blank.across (nested false) Blank.inline).Takes
    (entryKeyChars e.key) e.asRead.key Signed
  before : Blank.Fills false (e.value.layout.before.getD [' '])
  value : e.value.node.Reads e.value.node
  ends : e.stop.Ends (e.value.layout.after.getD [])

/-- A sound entry that was read in front of `rest`. -/
structure Entry.At (e : Entry) (rest : Chars) : Prop where
  sound : e.Sound
  asRead : e.asRead = e
  brace : e.stop = .brace → Closed rest
  read : entry nested (e.chars ++ rest) = some (e, rest)

namespace Grammar

/-- What is taken behind a value. -/
theorem behindValue_split {cs a r : Chars} {stop : Stop}
    (run : behindValue cs = some ((a, stop), r)) :
    ∃ m, cs = a ++ (m ++ r) ∧ ((stop = .comma ∧ m = [',']) ∨
      (stop = .newline ∧ (m = ['\n'] ∨ m = ['\r', '\n'])) ∨
      (stop = .brace ∧ m = [] ∧ r.head? = some '}')) := by
  obtain ⟨after, t, comment, gap, stopped, rfl⟩ := behindValue_eq_some_iff.mp run
  rw [Blank.gap_split gap]
  rcases entryStop_cases stopped with ⟨same, rfl⟩ | ⟨c, le, same, kind, rfl, -⟩ | ⟨same, rfl, first⟩
  · cases same
    exact ⟨[','], by simp, .inl ⟨rfl, rfl⟩⟩
  · cases same
    exact ⟨le, by simp, .inr (.inl ⟨rfl, kind⟩)⟩
  · cases same
    exact ⟨[], by simp, .inr (.inr ⟨rfl, rfl, first⟩)⟩

/-- What stands behind a value ends it. -/
theorem calm_of_behindValue {cs : Chars} {x : (Chars × Stop) × Chars}
    (run : behindValue cs = some x) : Calm (Blank.skip false cs) := by
  obtain ⟨⟨a, stop⟩, r⟩ := x
  obtain ⟨after, t, comment, gap, stopped, -⟩ := behindValue_eq_some_iff.mp run
  rw [Blank.skip_eq_of_gap gap]
  rcases entryStop_cases stopped with ⟨-, rfl⟩ | ⟨_, _, same, -⟩ | ⟨-, rfl, first⟩
  · exact (firm_of_mark (by decide) r).calm
  · cases same
    have inline := Blank.token_skip false cs
    rw [Blank.skip_eq_of_gap gap] at inline
    exact calm_of_token inline (across_of_newline gap stopped).1
  · obtain ⟨u, rfl⟩ := List.head?_eq_some_iff.mp first
    exact (firm_of_mark (by decide) u).calm

/-- The end of a line ends an entry. -/
theorem entryStop_of_lineEnd {le : Chars} (kind : le = ['\n'] ∨ le = ['\r', '\n']) (t : Chars) :
    entryStop (le ++ t) = some (([], .newline), t) := by
  rcases kind with rfl | rfl <;> rfl

/-- A line comment with the end of its line ends an entry. -/
theorem entryStop_of_lineComment {u c le t : Chars} (kind : le = ['\n'] ∨ le = ['\r', '\n'])
    (taken : Blank.lineComment u = some (c, le ++ t)) : entryStop u = some ((c, .newline), t) := by
  have ended : stopAtComment u = some ((c, .newline), t) := by
    rw [stopAtComment, bind_of_eq_some taken,
      bind_of_eq_some (Blank.lineEnd_eq_some_iff.mpr ⟨kind, rfl⟩)]
    rfl
  obtain ⟨d, v, mark, rfl⟩ := leads_lineComment _ _ taken
  simp only [Bool.or_eq_true, beq_iff_eq] at mark
  have noComma : stopAtComma (d :: v) = none :=
    (leads_exactly ',' []).bind.eq_none (by rcases mark with rfl | rfl <;> decide)
  have noLineEnd : stopAtLineEnd (d :: v) = none :=
    leads_lineEnd.bind.eq_none (by rcases mark with rfl | rfl <;> decide)
  rw [entryStop_eq, orElse_of_eq_none noComma, orElse_of_eq_none noLineEnd, orElse_of_eq_some ended]

theorem behindValue_of_ends {stop : Stop} {after t : Chars} (ends : stop.Ends after)
    (brace : stop = .brace → Closed t) :
    behindValue (after ++ (stop.chars ++ t)) = some ((after, stop), t) := by
  cases stop with
  | comma =>
    have gap := ends (',' :: t) fun c first => by obtain rfl := Option.some.inj first; decide
    exact behindValue_eq_some_iff.mpr ⟨after, _, [], gap, rfl, (List.append_nil after).symm⟩
  | brace =>
    obtain ⟨u, rfl⟩ := brace rfl
    have gap := ends ('}' :: u) fun c first => by obtain rfl := Option.some.inj first; decide
    exact behindValue_eq_some_iff.mpr ⟨after, _, [], gap, rfl, (List.append_nil after).symm⟩
  | newline =>
    obtain ⟨g, u, o, gap, comment, rfl⟩ :=
      lineRest_eq_some_iff.mp (ends ('\n' :: t) (.inr ⟨t, rfl⟩))
    refine behindValue_eq_some_iff.mpr ⟨g, u, o.getD [], gap, ?_, rfl⟩
    rcases optional_eq_some_iff.mp comment with ⟨c, rfl, taken⟩ | ⟨rfl, -, rfl⟩
    · exact @entryStop_of_lineComment u c ['\n'] t (.inl rfl) taken
    · rfl

theorem ends_of_behindValue {stop : Stop} {after t : Chars}
    (run : behindValue (after ++ (stop.chars ++ t)) = some ((after, stop), t)) :
    stop.Ends after := by
  obtain ⟨g, u, comment, gap, stopped, rfl⟩ := behindValue_eq_some_iff.mp run
  have hard : ∀ {c : Char}, Blank.soft false c = false → ∀ v, Blank.Hard false (c :: v) := by
    intro c firm v d first
    obtain rfl := Option.some.inj first
    exact firm
  -- An entry ends at a comma, at the end of its line or in front of the closing brace.
  rcases entryStop_cases stopped with ⟨same, rfl⟩ | ⟨_, le, same, kind, rfl, commented⟩ |
    ⟨same, rfl, first⟩
  · cases same
    rw [List.append_nil]
    exact Blank.fills_of_inline gap (hard (by decide) t)
  · cases same
    have split := Blank.gap_split gap
    simp only [List.append_assoc, List.append_cancel_left_eq] at split
    obtain rfl : ['\n'] = le := List.append_cancel_right (show ['\n'] ++ t = le ++ t from split)
    have taken : lineRest (g ++ comment ++ (Stop.newline.chars ++ t)) =
        some (g ++ comment, '\n' :: t) := by
      refine lineRest_eq_some_iff.mpr ?_
      rcases commented with rfl | commented
      · exact ⟨g, '\n' :: t, none, gap, rfl, rfl⟩
      · exact ⟨g, _, some comment, gap, optional_of_eq_some commented, rfl⟩
    exact trails_of_lineRest taken (.inr ⟨t, rfl⟩)
  · cases same
    rw [List.append_nil]
    obtain ⟨v, rfl⟩ := List.head?_eq_some_iff.mp first
    exact Blank.fills_of_inline gap (hard (by decide) v)

theorem stops_of_ends {stop : Stop} {after t : Chars} (ends : stop.Ends after)
    (meets : stop.Meets t) : Stops (after ++ (stop.chars ++ t)) := by
  cases stop with
  | comma => exact stops_of_mark (show Blank.Fills false after from ends) (by decide) t
  | brace =>
    obtain ⟨u, rfl⟩ := meets
    exact stops_of_mark (show Blank.Fills false after from ends) (by decide) u
  | newline => exact stops_of_trails ends (.inr ⟨t, rfl, meets⟩)

end Grammar

/-- In front of a value the sign is not taken for an operator. -/
theorem signed_of_value {sign : Sign} {value : Expr}
    (before : Blank.Fills false (value.layout.before.getD [' ']))
    (head : ∃ c u, value.node.chars = c :: u ∧ isStart c = true) (t : Chars) :
    Signed (sign.chars ++ (value.chars [' '] ++ t)) := by
  obtain ⟨layout, node⟩ := value
  obtain ⟨c, u, same, start⟩ := head
  refine ⟨⟨_, _, rfl⟩, firm_of_sign _ ?_⟩
  have split : (Expr.mk layout node).chars [' '] ++ t =
      layout.before.getD [' '] ++ c :: (u ++ layout.after.getD [] ++ t) := by
    rw [Expr.chars, Layout.around, show node.chars = c :: u from same]
    simp
  rw [split]
  exact head_ne_equals start (before _ (hard_of_isStart start))

/-- Behind the key of a sound entry stands the sign. -/
theorem Entry.Sound.signed {e : Entry} (h : e.Sound) (t : Chars) :
    Signed (e.sign.chars ++ (e.value.chars [' '] ++ t)) := by
  obtain ⟨key, sign, value, stop⟩ := e
  exact signed_of_value h.before (head_of_nested (h.value [] ⟨nofun, calm_nil⟩)) t

/-- A sound entry is read as it is printed where its value is. -/
theorem Entry.Sound.read_of_value {e : Entry} (h : e.Sound) {t : Chars}
    (brace : e.stop = .brace → Closed t)
    (read : nested false
      (e.value.node.chars ++ (e.value.layout.after.getD [] ++ (e.stop.chars ++ t))) =
        some (e.value.node, e.value.layout.after.getD [] ++ (e.stop.chars ++ t))) :
    entry nested (e.chars ++ t) = some (e.asRead, t) := by
  have key := h.key _ (h.signed (e.stop.chars ++ t))
  obtain ⟨k, sign, ⟨layout, node⟩, stop⟩ := e
  obtain ⟨-, -, -, before, -, ends⟩ := h
  simp only [Entry.value, Entry.stop, Entry.key, Entry.sign, Expr.layout, Expr.node] at *
  have gap := before _ (hard_of_nested read)
  refine entry_eq_some_iff.mpr ⟨_, sign, _, _, _, node, _, _, stop, ?_, gap, read,
    behindValue_of_ends ends brace, rfl⟩
  simpa [Entry.asRead, Entry.chars_eq, Entry.value, Entry.stop, Entry.key, Entry.sign, Expr.chars,
    Layout.around] using key

/-- A sound entry is read as it is printed. -/
theorem Entry.Sound.read {e : Entry} (h : e.Sound) {t : Chars} (meets : e.stop.Meets t) :
    entry nested (e.chars ++ t) = some (e.asRead, t) := by
  refine h.read_of_value (fun brace => ?_) (h.value _ (stops_of_ends h.ends meets))
  rw [brace] at meets
  exact meets

namespace Grammar

/-- What ends an entry parts its value from what is behind it, if the weights leave no room. -/
theorem split_at_stop {stop : Stop} {v w a m t r : Chars}
    (kind : (stop = .comma ∧ m = [',']) ∨ (stop = .newline ∧ (m = ['\n'] ∨ m = ['\r', '\n'])) ∨
      (stop = .brace ∧ m = [] ∧ r.head? = some '}'))
    (same : v ++ (a ++ (stop.chars ++ t)) = w ++ (a ++ (m ++ r)))
    (lightV : weight v ≤ weight w) (lightT : weight t ≤ weight r) (brace : stop = .brace → r = t) :
    v = w ∧ t = r ∧ stop.chars = m := by
  have weights := congrArg weight same
  simp only [weight_append] at weights
  -- A comma and a line feed weigh something, and only the latter can be printed for a line end.
  have part (c : Char) (heavy : heft c ≠ 0) (printed : stop.chars = [c]) (read : m = [c]) :
      v = w ∧ t = r ∧ stop.chars = m := by
    rw [printed, read] at weights same ⊢
    rw [← List.append_assoc, ← List.append_assoc w] at same
    obtain ⟨front, -, back⟩ := eq_of_weight_eq (c := c) (d := c) same
      (by simp only [weight_append]; omega) heavy heavy
    exact ⟨List.append_cancel_right front, back, rfl⟩
  rcases kind with ⟨rfl, rfl⟩ | ⟨rfl, le⟩ | ⟨rfl, rfl, -⟩
  · exact part ',' (by decide) rfl rfl
  · have light : weight (Stop.chars .newline) ≤ weight m := by rcases le with rfl | rfl <;> decide
    have lineFeed : weight (Stop.chars .newline) = weight ['\n'] := rfl
    exact part '\n' (by decide) rfl (Blank.eq_newline_of_weight le (by omega))
  · obtain rfl := brace rfl
    exact ⟨List.append_cancel_right same, rfl, rfl⟩

/-- The sign of an entry is one character that weighs something. -/
theorem chars_sign (sign : Sign) : ∃ c, sign.chars = [c] ∧ heft c ≠ 0 := by
  cases sign
  · exact ⟨'=', rfl, by decide⟩
  · exact ⟨':', rfl, by decide⟩

/-- If an entry weighs as much as its text and the rest, its pieces were read from their own
texts. -/
theorem pieces_of_entry {rest rest' : Chars} {e : Entry}
    (run : entry nested (e.chars ++ rest') = some (e, rest)) (light : weight rest' ≤ weight rest)
    (brace : e.stop = .brace → rest = rest') :
    rest = rest' ∧
      between Blank.across (nested false) Blank.inline (entryKeyChars e.key ++
          (e.sign.chars ++ (e.value.chars [' '] ++ (e.stop.chars ++ rest)))) =
        some (e.key, e.sign.chars ++ (e.value.chars [' '] ++ (e.stop.chars ++ rest))) ∧
      ∃ before after, e.value = .mk (.written before after) e.value.node ∧
        Blank.inline (before ++ (e.value.node.chars ++ (after ++ (e.stop.chars ++ rest)))) =
          some (before, e.value.node.chars ++ (after ++ (e.stop.chars ++ rest))) ∧
        nested false (e.value.node.chars ++ (after ++ (e.stop.chars ++ rest))) =
          some (e.value.node, after ++ (e.stop.chars ++ rest)) ∧
        behindValue (after ++ (e.stop.chars ++ rest)) = some ((after, e.stop), rest) ∧
        (e.stop = .brace → Closed rest) := by
  obtain ⟨key, sign, X, b, V, node, Y, A, stop, keyRead, gap, value, behind, rfl⟩ :=
    entry_eq_some_iff.mp run
  obtain ⟨b₁, kt, lead, inner⟩ := bind_eq_some_iff.mp keyRead
  obtain ⟨kn, kr, read, tail⟩ := bind_eq_some_iff.mp inner
  obtain ⟨b₂, sr, gap₂, last⟩ := bind_eq_some_iff.mp tail
  cases last
  -- the text in the pieces that were read, and in those that are printed
  obtain ⟨K, splitK, lightK⟩ := Replays.light (fun n => replays_nested n false) _ _ _ read
  obtain ⟨N, splitN, lightN⟩ := Replays.light (fun n => replays_nested n false) _ _ _ value
  obtain ⟨m, splitY, kind⟩ := behindValue_split behind
  have split := Blank.across_split lead
  rw [splitK, Blank.inline_split gap₂, Blank.inline_split gap, splitN, splitY] at split
  simp only [Entry.chars, entryKeyChars, Expr.chars, Layout.around, Layout.written,
    Option.getD_some, List.append_assoc, List.append_cancel_left_eq] at split
  have lightM : weight stop.chars ≤ weight m := by
    rcases kind with ⟨rfl, rfl⟩ | ⟨rfl, rfl | rfl⟩ | ⟨rfl, rfl, -⟩ <;> decide
  have weights := congrArg weight split
  simp only [weight_append, Node.gauge] at weights lightK lightN
  -- the sign parts the key from the value
  obtain ⟨c, signed, heavy⟩ := chars_sign sign
  rw [signed, ← List.append_assoc, ← List.append_assoc _ b₂] at split
  obtain ⟨front, -, back⟩ :=
    eq_of_weight_eq (c := c) (d := c) split (by simp only [weight_append]; omega) heavy heavy
  obtain rfl := List.append_cancel_right front
  have back := List.append_cancel_left (show b ++ _ = b ++ _ from back)
  obtain ⟨rfl, rfl, rfl⟩ := split_at_stop kind back (by omega) light brace
  subst splitY splitN
  obtain rfl := Blank.inline_split gap
  have printed (t : Chars) :
      (Expr.mk (.written b A) node).chars [' '] ++ t = b ++ (node.chars ++ (A ++ t)) := by
    simp [Expr.chars, Layout.around, Layout.written]
  have text : (Entry.mk (.mk (.written b₁ b₂) kn) sign (.mk (.written b A) node) stop).chars ++
      rest' = entryKeyChars (.mk (.written b₁ b₂) kn) ++
        (sign.chars ++ ((Expr.mk (.written b A) node).chars [' '] ++ (stop.chars ++ rest'))) := by
    rw [Entry.chars_eq]
    simp [Entry.key, Entry.sign, Entry.value, Entry.stop]
  rw [text, ← printed] at keyRead
  refine ⟨rfl, keyRead, b, A, rfl, gap, value, behind, ?_⟩
  rintro rfl
  rcases kind with ⟨wrong, -⟩ | ⟨wrong, -⟩ | ⟨-, -, first⟩
  · cases wrong
  · cases wrong
  · exact List.head?_eq_some_iff.mp first

/-- An entry that weighs as much as its text and the rest was read from its own text. -/
theorem at_of_entry {rest rest' : Chars} {e : Entry}
    (run : entry nested (e.chars ++ rest') = some (e, rest)) (light : weight rest' ≤ weight rest)
    (brace : e.stop = .brace → rest = rest') (whole : e.Whole) : rest = rest' ∧ e.At rest := by
  obtain ⟨rfl, keyRead, b, A, shape, gap, value, behind, closed⟩ := pieces_of_entry run light brace
  obtain ⟨key, sign, ⟨layout, node⟩, stop⟩ := e
  obtain rfl : layout = .written b A := congrArg Expr.layout shape
  obtain ⟨b₁, kt, lead, inner⟩ := bind_eq_some_iff.mp keyRead
  obtain ⟨kn, kr, read, tail⟩ := bind_eq_some_iff.mp inner
  obtain ⟨b₂, sr, gap₂, last⟩ := bind_eq_some_iff.mp tail
  obtain ⟨same, rfl⟩ := Prod.mk.inj (Option.some.inj last)
  obtain rfl : Expr.mk (.written b₁ b₂) kn = key := same
  have before : Blank.Fills false b := Blank.fills_of_inline gap (hard_of_nested value)
  have signed := @signed_of_value sign (.mk (.written b A) node) before (head_of_nested value)
    (stop.chars ++ rest)
  -- the text of the key, without the blank space around it
  obtain rfl : kn.chars ++ kr = kt := by
    have split := Blank.across_split lead
    rw [Blank.inline_split gap₂]
    simpa [entryKeyChars, Layout.written, Entry.key] using split
  refine ⟨rfl, ⟨?_, head_of_nested read, ?_, before, Node.reads_of_nested value whole.2,
    ends_of_behindValue behind⟩, rfl, closed, run⟩
  · obtain ⟨c, u, same, start⟩ := head_of_nested read
    rw [same] at lead
    exact Blank.fills_of_across lead (hard_of_isStart start)
  · exact .of_replays (fun n => replays_between (replays_nested n) true false false) keyRead
      (Nat.le_of_eq (weight_entryKeyChars _)) whole.1 fun rest'' ok => signed.closes ok

/-! ### All entries of an object -/

theorem light_entry : Light 0 (fun e => weight e.chars) (entry nested) :=
  Replays.light fun n => replays_entry (replays_nested n)

/-- No entry begins in front of the closing brace. -/
theorem entry_eq_none_of_brace {t b r : Chars} (gap : Blank.gap true t = some (b, '}' :: r)) :
    entry nested t = none := by
  refine entry_eq_none fun c first => ?_
  rw [Blank.skip_eq_of_gap gap] at first
  obtain rfl := Option.some.inj first
  decide

/-- The first of the entries that are read in front of a rest is read from its own text. -/
theorem at_head_of_chain {entries : List Entry} {first : Entry} {t : Chars}
    (chain : Chain (entry nested) (entriesChars (first :: entries) ++ t) (first :: entries) t)
    (whole : first.Whole) :
    first.At (entriesChars entries ++ t) ∧
      Chain (entry nested) (entriesChars entries ++ t) entries t := by
  cases chain with
  | @cons _ r _ _ _ taken _ more =>
    rw [entriesChars, List.append_assoc] at taken
    obtain ⟨w, same, light⟩ := light_entry.many _ _ _ (many_eq_some_of_chain more)
    rw [← weight_entriesChars] at light
    -- Behind an entry that ends at the brace no other one is read.
    have ends : first.stop = .brace → r = entriesChars entries ++ t := by
      intro brace
      obtain ⟨_, _, _, _, _, _, _, _, stop, -, -, -, behind, rfl⟩ := entry_eq_some_iff.mp taken
      obtain rfl : stop = .brace := brace
      obtain ⟨_, -, ⟨wrong, -⟩ | ⟨wrong, -⟩ | ⟨-, -, close⟩⟩ := behindValue_split behind
      · cases wrong
      · cases wrong
      cases more with
      | nil => rfl
      | cons next =>
        obtain ⟨u, rfl⟩ := List.head?_eq_some_iff.mp close
        rw [entry_eq_none_of_brace (b := [])
          (Blank.gap_of_hard (firm_of_mark (by decide) u).hard)] at next
        cases next
    obtain ⟨rfl, here⟩ :=
      at_of_entry taken (by rw [same, weight_append, weight_append]; omega) ends whole
    exact ⟨here, more⟩

/-- The entries that are read in front of a rest, each from its own text. -/
theorem at_of_chain {entries : List Entry} {t : Chars}
    (chain : Chain (entry nested) (entriesChars entries ++ t) entries t)
    (whole : ∀ e ∈ entries, e.Whole) {front back : List Entry} {e : Entry}
    (split : entries = front ++ e :: back) :
    e.At (entriesChars back ++ t) ∧
      Chain (entry nested) (entriesChars back ++ t) back t := by
  induction entries generalizing front with
  | nil => simp at split
  | cons first entries ih =>
    rw [List.forall_mem_cons] at whole
    obtain ⟨here, more⟩ := at_head_of_chain chain whole.1
    cases front with
    | nil =>
      obtain ⟨rfl, rfl⟩ := List.cons.inj split
      exact ⟨here, more⟩
    | cons _ front =>
      obtain ⟨-, rfl⟩ := List.cons.inj split
      exact ih more whole.2 rfl

/-- An object whose text is its own was read entry by entry. -/
theorem entries_of_object {entries : List Entry} {closing r : Chars}
    (run : nested false ((Node.object entries closing).chars ++ r) =
      some (.object entries closing, r)) :
    beginsLoop (entriesChars entries ++ (closing ++ '}' :: r)) = false ∧
      Chain (entry nested) (entriesChars entries ++ (closing ++ '}' :: r)) entries
        (closing ++ '}' :: r) ∧
      Entry.distinct entries = entries ∧
      Blank.gap true (closing ++ '}' :: r) = some (closing, '}' :: r) := by
  have text : (Node.object entries closing).chars ++ r =
      '{' :: (entriesChars entries ++ (closing ++ '}' :: r)) := by
    simp [Node.chars]
  rw [text] at run
  obtain ⟨loops, found, t, repeated, distinct, gap⟩ := object_eq_some_iff.mp (object_of_nested run)
  obtain rfl := Blank.gap_split gap
  obtain ⟨w, split, light⟩ := light_entry.many _ _ _ repeated
  obtain rfl := List.append_cancel_right split
  rw [← weight_entriesChars] at light
  have same : Entry.distinct found = found :=
    (distinct_spec found).2 (by rw [distinct]; simpa using light)
  rw [distinct] at same
  subst same
  exact ⟨loops, many_iff_chain.mp repeated, distinct, gap⟩

end Grammar

/-! ### What was read is read back as it is -/

theorem asRead_of_entry {cs r : Chars} {e : Entry} (run : entry nested cs = some (e, r)) :
    e.asRead = e := by
  obtain ⟨key, sign, X, b, V, node, Y, A, stop, keyRead, -, -, -, rfl⟩ := entry_eq_some_iff.mp run
  obtain ⟨b₁, kt, -, inner⟩ := bind_eq_some_iff.mp keyRead
  obtain ⟨kn, kr, -, tail⟩ := bind_eq_some_iff.mp inner
  obtain ⟨b₂, sr, -, last⟩ := bind_eq_some_iff.mp tail
  cases last
  rfl

/-- An object whose entries have everything written is read back as it is. -/
theorem Node.asRead_object {entries : List Entry} (written : ∀ e ∈ entries, e.asRead = e)
    (closing : Chars) : (Node.object entries closing).asRead = .object entries closing := by
  have all : entries.map Entry.asRead = entries :=
    (List.map_congr_left written).trans (List.map_id _)
  match entries with
  | [] => rfl
  | [e] =>
    have after : e.value.layout.after ≠ none := by
      intro missing
      have same := congrArg (fun e => e.value.layout.after) (written e List.mem_cons_self)
      rw [missing] at same
      cases same
    rw [Node.asRead, if_neg fun both => after both.1, written e List.mem_cons_self]
  | e :: next :: rest => rw [Node.asRead, all]; simp

/-- An expression that was read from its own text is read back as it is. -/
theorem Node.asRead_of_nested {node : Node} {t : Chars}
    (run : nested false (node.chars ++ t) = some (node, t)) : node.asRead = node := by
  cases node with
  | object entries closing =>
    refine asRead_object (fun e member => ?_) closing
    obtain ⟨-, chain, -, -⟩ := entries_of_object run
    clear run
    generalize closing ++ '}' :: t = r at chain
    generalize entriesChars entries ++ r = cs at chain
    induction chain with
    | nil => cases member
    | cons taken _ _ ih =>
      rcases List.mem_cons.mp member with rfl | inside
      · exact asRead_of_entry taken
      · exact ih inside
  | _ => rfl

end TerraformPins.Hcl
