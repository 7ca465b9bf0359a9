import TerraformPins.Proofs.Hcl.Follow
import TerraformPins.Proofs.Hcl.Whole

/-!
# Replaying expressions between marks

An expression with a mark behind it is replayed in front of the same mark. This covers what loops,
interpolations, lists and calls have in common.

## Main results

* `Grammar.replays_spaced` — an expression between blank space
* `Grammar.replays_loopHead`, `Grammar.replays_loopCondition` — the two ends of a loop
* `Grammar.replays_marker` — a directive of one word
-/

namespace TerraformPins.Hcl.Grammar

open Scan

/-- The marks of one character. -/
def isMark (c : Char) : Bool :=
  [',', ']', ')', '}', '~', ':'].contains c

/-- A mark is firm: no blank space begins with it, and no expression goes on with it. -/
theorem firm_of_mark {c : Char} (h : isMark c = true) (t : Chars) : Firm (c :: t) := by
  have each : c = ',' ∨ c = ']' ∨ c = ')' ∨ c = '}' ∨ c = '~' ∨ c = ':' := by simpa [isMark] using h
  refine ⟨fun d first => ?_, by simp, ?_⟩
  · obtain rfl := Option.some.inj first
    rcases each with rfl | rfl | rfl | rfl | rfl | rfl <;> decide
  · rcases each with rfl | rfl | rfl | rfl | rfl | rfl <;>
      exact ⟨by simp, by simp, by simp, rfl, by simp⟩

/-- Any two of these marks end an expression alike. -/
theorem closes_of_mark {c c' : Char} {t t' : Chars} (h : isMark c = true) (h' : isMark c' = true) :
    Closes (c :: t) (c' :: t') := by
  have each : c' = ',' ∨ c' = ']' ∨ c' = ')' ∨ c' = '}' ∨ c' = '~' ∨ c' = ':' := by
    simpa [isMark] using h'
  refine ⟨.inr fun d first => ?_, firm_of_mark h t, firm_of_mark h' t'⟩
  obtain rfl := Option.some.inj first
  rcases each with rfl | rfl | rfl | rfl | rfl | rfl <;> decide

/-- The other marks have two characters. -/
theorem closes_of_marks {c d : Char} {t t' : Chars}
    (h : (c, d) = ('i', 'f') ∨ (c, d) = ('i', 'n') ∨ (c, d) = ('=', '>') ∨ (c, d) = ('.', '.')) :
    Closes (c :: d :: t) (c :: d :: t') := by
  have firm : ∀ u, Firm (c :: d :: u) := by
    intro u
    refine ⟨fun e first => ?_, by simp, ?_⟩
    · obtain rfl := Option.some.inj first
      rcases h with h | h | h | h <;> cases h <;> decide
    · rcases h with h | h | h | h <;> cases h <;> exact ⟨by simp, by simp, by simp, rfl, by simp⟩
  refine ⟨.inl ⟨c, d, t, t', rfl, rfl, ?_⟩, firm t, firm t'⟩
  rcases h with h | h | h | h <;> cases h <;> decide

/-- What begins in the same way begins blank space alike. -/
theorem near_of_start {newlines : Bool} {c c' : Char} {t t' : Chars} (start : isStart c = true)
    (start' : isStart c' = true) : Near newlines (c :: t) (c' :: t') :=
  .inr ⟨hard_of_isStart start, nofun, hard_of_isStart start'⟩

/-- Two names that are read behind blank space are near each other. -/
theorem near_of_identifier {newlines : Bool} {t t' : Chars} {x x' : Chars × Chars}
    (run : identifier t = some x) (run' : identifier t' = some x') : Near newlines t t' := by
  obtain ⟨c, u, start, rfl⟩ := leads_identifier _ _ run
  obtain ⟨c', u', start', rfl⟩ := leads_identifier _ _ run'
  exact near_of_start (by simp [isStart, start]) (by simp [isStart, start'])

/-- The mark that strips blanks is read again, unless one stands behind it. -/
theorem replays_stripMark (n : Nat) :
    Replays n 0 True stripGauge (fun _ r' => r'.head? ≠ some '~') stripMark := by
  have mark : Replays n 0 True (Gauge.fixed ['~']).option (fun _ r' => r'.head? ≠ some '~')
      (Scan.optional (exactly ['~'])) :=
    (Replays.exactly n ['~']).optional.mono (fun r r' other => ⟨trivial, fun _ => ?_⟩)
      (Nat.le_refl n)
  · refine mark.map (fun o => ?_) fun o _ _ => ⟨trivial, fun _ _ => trivial⟩
    cases o <;> simp [stripGauge, stripChars, Gauge.option, Gauge.fixed]
  · refine (leads_exactly '~' []).eq_none_of_head fun c first => ?_
    rw [beq_eq_false_iff_ne]
    rintro rfl
    exact other first

/-- A mark that strips blank space, or the brace behind it. -/
theorem head_of_stripMark {β : Type} {f : Bool → Chars → Scan β} {t : Chars} {x : β × Chars}
    (run : (do
      let right ← stripMark
      let close ← exactly ['}']
      f right close) t = some x) : ∃ c u, t = c :: u ∧ isMark c = true := by
  obtain ⟨right, u, mark, more⟩ := bind_eq_some_iff.mp run
  obtain ⟨v, rfl, -⟩ := exactly_bind_eq_some_iff.mp more
  rw [stripMark, map_apply, Option.map_eq_some_iff] at mark
  obtain ⟨⟨o, w⟩, found, same⟩ := mark
  cases same
  rcases optional_eq_some_iff.mp found with ⟨a, -, taken⟩ | ⟨-, -, rfl⟩
  · obtain ⟨-, rfl⟩ := exactly_eq_some_iff.mp taken
    exact ⟨'~', _, rfl, by decide⟩
  · exact ⟨'}', _, rfl, by decide⟩

/-- The end of a marker closes what is in front of it. -/
theorem closes_of_stripMark {β : Type} {f g : Bool → Chars → Scan β} {t t' : Chars}
    {x x' : β × Chars} (run : (do
      let right ← stripMark
      let close ← exactly ['}']
      f right close) t = some x)
    (run' : (do
      let right ← stripMark
      let close ← exactly ['}']
      g right close) t' = some x') : Closes t t' := by
  obtain ⟨c, u, same, mark⟩ := head_of_stripMark run
  obtain ⟨c', u', same', mark'⟩ := head_of_stripMark run'
  rw [same, same']
  exact closes_of_mark mark mark'

/-- Blank space does not begin with the mark that strips it. -/
theorem head_ne_of_gap {t b r : Chars} (run : Blank.across t = some (b, r))
    (h : r.head? ≠ some '~') : t.head? ≠ some '~' := by
  obtain rfl := Blank.across_split run
  cases b with
  | nil => exact h
  | cons c b =>
    intro first
    obtain rfl := Option.some.inj first
    exact absurd (Blank.soft_of_across run) (by decide)

/-- A name between blank space is read again. -/
theorem replays_spacedWord (n : Nat) : Replays n 0 True Word.gauge Closes spacedWord := by
  refine Replays.bind (Blank.replays_gap n true) (fun before => ?_)
    fun before x w rest rest' run run' _ => ?_
  · refine Replays.bind (replays_identifier n) (fun word => ?_)
      fun word x w rest rest' run run' closes => ?_
    · have last : Replays n 0 True Gauge.text Closes Blank.across :=
        (Blank.replays_gap n true).mono (fun r r' c => c.near true) (Nat.le_refl n)
      refine last.bind_pure (fun after => ?_) fun after _ _ => by simp [Gauge.text]
      simp only [Word.gauge, Gauge.text, Word.chars, weight_append]
      omega
    · obtain ⟨after, t, gap, last⟩ := bind_eq_some_iff.mp run
      obtain ⟨after', t', gap', last'⟩ := bind_eq_some_iff.mp run'
      cases last
      cases last'
      exact alike_of_across gap gap' closes.alike
  · obtain ⟨word, t, first, -⟩ := bind_eq_some_iff.mp run
    obtain ⟨word', t', first', -⟩ := bind_eq_some_iff.mp run'
    exact near_of_identifier first first'

/-- What the head of a loop weighs. -/
theorem weight_loopChars (lead : Chars) (first : Word) (second : Option Word) :
    weight (loopChars lead (first :: second.toList)) =
      weight lead + 3 + weight first.chars +
        (second.map fun w => 1 + weight w.chars).getD 0 + 2 := by
  have marks : weight ['f', 'o', 'r'] = 3 ∧ weight ['i', 'n'] = 2 ∧ weight [','] = 1 := by decide
  cases second with
  | none =>
    simp only [loopChars, wordsChars, joinWith, Option.toList, List.map_cons, List.map_nil,
      weight_append, marks, Option.map, Option.getD]
  | some w =>
    simp only [loopChars, wordsChars, joinWith, Option.toList, List.map_cons, List.map_nil,
      weight_append, marks, Option.map, Option.getD]
    omega

/-- The gauge of the head of a loop. -/
def headGauge : Gauge (Chars × List Word × Expr) :=
  ⟨fun x => weight (loopChars x.1 x.2.1) + weight (x.2.2.chars []), fun x => x.2.2.Whole⟩

section Productions

variable {n : Nat} (h : ∀ newlines, Replays n 0 True Node.gauge Follow (nested newlines))
include h

omit h in
/-- An expression and the blank space behind it. -/
def betweenTail (newlines after : Bool) (left : Chars) : Scan Expr := do
  let node ← nested newlines
  let right ← Blank.gap after
  pure (.mk (.written left right) node)

omit h in
theorem between_eq (before newlines after : Bool) :
    between (Blank.gap before) (nested newlines) (Blank.gap after) =
      Blank.gap before >>= betweenTail newlines after := rfl

omit h in
/-- Blank space behind an expression. -/
theorem replays_after {credit : Nat} {claim : Prop} {after : Bool} {left : Chars} {node : Node}
    (paid : weight left + weight node.chars ≤ credit) (holds : node.Whole → claim) :
    Replays n credit claim Expr.gauge Closes (do
      let right ← Blank.gap after
      pure (.mk (.written left right) node)) := by
  have last : Replays n 0 True Gauge.text Closes (Blank.gap after) :=
    (Blank.replays_gap n after).mono (fun r r' c => c.near after) (Nat.le_refl n)
  refine last.bind_pure (fun right => ?_) fun right _ whole => ⟨holds whole, trivial⟩
  simp only [Expr.gauge, Gauge.text, Expr.chars, Layout.around, Layout.written, weight_append,
    Option.getD_some]
  omega

omit h in
/-- What closes an expression behind blank space may follow it without. -/
theorem follow_of_after {after : Bool} {left : Chars} {node : Node} {e : Expr} {t t' r r' : Chars}
    (run : (do
      let right ← Blank.gap after
      pure (.mk (.written left right) node) : Scan Expr) t = some (e, r))
    (run' : (do
      let right ← Blank.gap after
      pure (.mk (.written left right) node) : Scan Expr) t' = some (e, r')) (closes : Closes r r') :
    Follow t t' := by
  obtain ⟨right, u, gap, last⟩ := bind_eq_some_iff.mp run
  obtain ⟨right', u', gap', last'⟩ := bind_eq_some_iff.mp run'
  cases last
  cases last'
  exact follow_of_gap gap gap' closes

/-- What is behind the blank space in front of an expression is read again. -/
theorem replays_betweenTail {credit : Nat} {claim : Prop} (newlines after : Bool) {left : Chars}
    (paid : weight left ≤ credit) (holds : claim) :
    Replays n credit claim Expr.gauge Closes (betweenTail newlines after left) := by
  refine Replays.bind (h newlines) (fun node => replays_after ?_ fun whole => ⟨holds, whole⟩)
    fun node e w rest rest' run run' closes => follow_of_after run run' closes
  simp only [Node.gauge]
  omega

omit h in
/-- Two expressions that are read behind blank space are near each other. -/
theorem near_of_betweenTail {newlines nl after : Bool} {left left' t t' : Chars}
    {x x' : Expr × Chars} (run : betweenTail nl after left t = some x)
    (run' : betweenTail nl after left' t' = some x') : Near newlines t t' := by
  obtain ⟨node, u, first, -⟩ := bind_eq_some_iff.mp run
  obtain ⟨node', u', first', -⟩ := bind_eq_some_iff.mp run'
  exact near_of_nested first first'

/-- An expression between blank space is read again. -/
theorem replays_between (before newlines after : Bool) : Replays n 0 True Expr.gauge Closes
    (between (Blank.gap before) (nested newlines) (Blank.gap after)) := by
  rw [between_eq]
  refine Replays.bind (Blank.replays_gap n before) (fun left => ?_)
    fun left e w rest rest' run run' _ => near_of_betweenTail run run'
  exact replays_betweenTail h newlines after (by simp [Gauge.text]) ⟨trivial, trivial⟩

/-- An operand behind an operator. -/
theorem replays_operand (newlines : Bool) : Replays n 0 True Expr.gauge Follow
    (between (Blank.gap newlines) (nested newlines) (pure [])) := by
  refine Replays.bind (Blank.replays_gap n newlines) (fun left => ?_)
    fun left e w rest rest' run run' _ => ?_
  · refine (h newlines).bind_pure (fun node => ?_) fun node _ whole => ⟨⟨trivial, trivial⟩, whole⟩
    simp only [Expr.gauge, Node.gauge, Gauge.text, Expr.chars, Layout.around, Layout.written,
      weight_append, Option.getD_some, weight_nil]
    omega
  · obtain ⟨node, t, first, -⟩ := bind_eq_some_iff.mp run
    obtain ⟨node', t', first', -⟩ := bind_eq_some_iff.mp run'
    exact near_of_nested first first'

theorem replays_spaced : Replays n 0 True Expr.gauge Closes (spaced nested) :=
  replays_between h true false true

/-- The condition of a loop is read again. -/
theorem replays_loopCondition :
    Replays n 0 True ⟨fun e => weight ['i', 'f'] + weight (e.chars []), Expr.Whole⟩ Closes
      (loopCondition nested) := by
  refine Replays.lead_bind
    ((replays_spaced h).gauge (fun e => ?_) fun e _ whole => ⟨trivial, whole⟩)
  simp [Expr.gauge]

omit h in
/-- The head of a loop behind its first word. -/
def loopHeadTail (lead : Chars) (first : Word) : Scan (Chars × List Word × Expr) := do
  let second ← Scan.optional (do
    let _ ← Scan.exactly [',']
    spacedWord)
  let _ ← Scan.exactly ['i', 'n']
  let source ← spaced nested
  pure (lead, first :: second.toList, source)

omit h in
theorem loopHead_eq : loopHead nested = (do
    let lead ← Blank.across
    let _ ← Scan.exactly ['f', 'o', 'r']
    let first ← spacedWord
    loopHeadTail lead first) := rfl

omit h in
/-- What makes the same head of a loop of two texts closes the first word in both. -/
theorem closes_of_loopHeadTail {lead : Chars} {first : Word} {x : Chars × List Word × Expr}
    {t t' r r' : Chars} (run : loopHeadTail lead first t = some (x, r))
    (run' : loopHeadTail lead first t' = some (x, r')) : Closes t t' := by
  obtain ⟨o, u, second, more⟩ := bind_eq_some_iff.mp run
  obtain ⟨o', u', second', more'⟩ := bind_eq_some_iff.mp run'
  obtain ⟨v, behind, last⟩ := exactly_bind_eq_some_iff.mp more
  obtain ⟨v', behind', last'⟩ := exactly_bind_eq_some_iff.mp more'
  obtain ⟨source, w, -, same⟩ := bind_eq_some_iff.mp last
  obtain ⟨source', w', -, same'⟩ := bind_eq_some_iff.mp last'
  cases same
  simp only [pure_apply, Option.some.injEq, Prod.mk.injEq, List.cons.injEq] at same'
  -- both loops have a second word, or neither has one
  rcases optional_eq_some_iff.mp second with ⟨y, rfl, found⟩ | ⟨rfl, -, rfl⟩
  · rcases optional_eq_some_iff.mp second' with ⟨y', rfl, found'⟩ | ⟨rfl, -, rfl⟩
    · obtain ⟨_, front, -⟩ := exactly_bind_eq_some_iff.mp found
      obtain ⟨_, front', -⟩ := exactly_bind_eq_some_iff.mp found'
      rw [front, front']
      exact closes_of_mark (by decide) (by decide)
    · simp at same'
  · rcases optional_eq_some_iff.mp second' with ⟨y', rfl, found'⟩ | ⟨rfl, -, rfl⟩
    · simp at same'
    · rw [behind, behind']
      exact closes_of_marks (by decide)

/-- What is behind the first name of a loop is read again, with a second name or without. -/
theorem replays_loopHeadTail {credit : Nat} {claim : Prop} {lead : Chars} {first : Word}
    (paid : weight lead + 3 + weight first.chars ≤ credit) (holds : claim) :
    Replays n credit claim headGauge Closes (loopHeadTail lead first) := by
  have more : Replays n 0 True ⟨fun w => weight [','] + weight w.chars, fun _ => True⟩ Closes
      (do
        let _ ← exactly [',']
        spacedWord) := by
    refine Replays.lead_bind
      ((replays_spacedWord n).gauge (fun w => ?_) fun w _ _ => ⟨trivial, trivial⟩)
    simp [Word.gauge]
  refine Replays.bind more.optional (fun second => ?_) fun second x w rest rest' run run' _ => ?_
  · refine Replays.lead_bind
      ((replays_spaced h).bind_pure (fun source => ?_) fun source _ whole => ?_)
    · have marks : weight ['i', 'n'] = 2 ∧ weight [','] = 1 := by decide
      simp only [headGauge, Gauge.option, Expr.gauge, weight_loopChars, marks]
      omega
    · exact ⟨⟨holds, fun _ _ => trivial⟩, whole⟩
  · obtain ⟨t, same, -⟩ := exactly_bind_eq_some_iff.mp run
    obtain ⟨t', same', -⟩ := exactly_bind_eq_some_iff.mp run'
    rw [same, same']
    exact ⟨closes_of_marks (by decide), fun _ => exactly_bind_eq_none (by simp)⟩

/-- The head of a loop is read again. -/
theorem replays_loopHead : Replays n 0 True headGauge Closes (loopHead nested) := by
  rw [loopHead_eq]
  refine Replays.bind (Blank.replays_gap n true) (fun lead => ?_)
    fun left e w rest rest' run run' _ => ?_
  · refine Replays.lead_bind (Replays.bind (replays_spacedWord n) (fun first => ?_)
      fun first x w rest rest' run run' _ => closes_of_loopHeadTail run run')
    have word : weight ['f', 'o', 'r'] = 3 := by decide
    refine replays_loopHeadTail h ?_ ⟨⟨trivial, trivial⟩, trivial⟩
    simp only [Gauge.text, Word.gauge, word]
    omega
  · obtain ⟨t, same, -⟩ := exactly_bind_eq_some_iff.mp run
    obtain ⟨t', same', -⟩ := exactly_bind_eq_some_iff.mp run'
    rw [same, same']
    exact near_of_start (by decide) (by decide)

end Productions

end TerraformPins.Hcl.Grammar
