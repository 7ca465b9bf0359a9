import TerraformPins.Proofs.Hcl.Operator

/-!
# Replaying expressions

An expression is read again wherever it stands, if what is behind it ends it as before. The proof is
by induction on a bound for the length of the expression: what is nested in it is shorter.

## Main results

* `Grammar.replays_expression` — an expression, if shorter ones are replayed
-/

namespace TerraformPins.Hcl.Grammar

open Scan

/-! ### What is behind a term -/

/-- A text in which an operator follows behind blank space. -/
def Goes (newlines : Bool) (t : Chars) : Prop :=
  ∃ b c u, Blank.gap newlines t = some (b, c :: u) ∧
    (c = '?' ∨ isOperator c = true ∧ (c = '/' → u.head? ≠ some '*' ∧ u.head? ≠ some '/'))

/-- An operation takes nothing, or two characters at least in front of which the value goes on. -/
theorem goes_of_operation {newlines : Bool} {first node : Node} {w r : Chars}
    (run : operation nested newlines first (w ++ r) = some (node, r)) :
    w = [] ∨ 2 ≤ w.length ∧ Goes newlines (w ++ r) := by
  rw [operation_eq] at run
  rcases orElse_eq_some_iff.mp run with asked | ⟨-, run⟩
  · rw [question_eq] at asked
    have long :=
      ((shortens_gap newlines).bind_twice fun gap => twice_questionTail newlines first gap)
      _ _ _ asked
    obtain ⟨b, t, gap, more⟩ := bind_eq_some_iff.mp asked
    obtain ⟨u, rfl, -⟩ := exactly_bind_eq_some_iff.mp more
    exact .inr ⟨length_of_takes long, b, '?', u, gap, .inl rfl⟩
  rcases orElse_eq_some_iff.mp run with operated | ⟨-, plain⟩
  · rw [operator_eq] at operated
    have long :=
      ((shortens_gap newlines).bind_twice fun gap => twice_operatorTail newlines first gap)
      _ _ _ operated
    obtain ⟨b, t, gap, more⟩ := bind_eq_some_iff.mp operated
    obtain ⟨c, u, rfl, ok, slash⟩ := operatorTail_head more
    exact .inr ⟨length_of_takes long, b, c, u, gap, .inr ⟨ok, slash⟩⟩
  · exact .inl (by simpa using congrArg (fun x => x.map Prod.snd) plain)

/-- Where an operator follows, the blank space in front of it ends even across lines. -/
theorem Goes.skip {newlines : Bool} {t : Chars} (h : Goes newlines t) :
    ∃ c u, Blank.skip true t = c :: u ∧ Blank.skip newlines t = c :: u ∧
      (c = '?' ∨ isOperator c = true) := by
  obtain ⟨b, c, u, gap, which⟩ := h
  -- A slash may begin a comment, and what is behind it decides. The other operators begin nothing
  -- blank.
  have stays : Blank.token true (c :: u) = none := by
    by_cases slash : c = '/'
    · subst slash
      obtain ⟨star, other⟩ : u.head? ≠ some '*' ∧ u.head? ≠ some '/' := by
        rcases which with same | ⟨-, both⟩
        · cases same
        · exact both rfl
      cases u with
      | nil => rfl
      | cons d u =>
        have space : run1 Blank.isSpace ('/' :: d :: u) = none :=
          Blank.run1_isSpace_eq_none (by decide) _
        rw [Blank.token, if_pos rfl, orElse_of_eq_none space,
          orElse_of_eq_none (Blank.lineEnd_eq_none (by decide) (by decide)),
          orElse_of_eq_none (Blank.comment_eq_none_of_next (by simpa using star)),
          Blank.lineComment_eq_none_of_next (by simpa using other)]
    · refine Blank.token_eq_none ?_ u
      have each : c = '?' ∨ c ∈ ['=', '!', '<', '>', '+', '-', '*', '/', '%', '&', '|'] := by
        rcases which with same | ⟨ok, -⟩
        · exact .inl same
        · exact .inr (List.contains_iff_mem.mp ok)
      simp only [List.mem_cons, List.not_mem_nil, or_false, slash, false_or] at each
      rcases each with rfl | rfl | rfl | rfl | rfl | rfl | rfl | rfl | rfl | rfl | rfl <;> decide
  have here := Blank.skip_eq_of_gap gap
  refine ⟨c, u, ?_, here, which.imp id And.left⟩
  cases newlines with
  | true => exact here
  | false =>
    rw [← Blank.skip_skip, here]
    exact Blank.skip_eq_of_gap (Blank.gap_eq_of_token_eq_none stays)

theorem Goes.head {newlines : Bool} {t : Chars} (h : Goes newlines t) {d : Char}
    (first : t.head? = some d) : d ≠ 'e' ∧ d ≠ 'E' ∧ d ≠ '(' := by
  obtain ⟨b, c, u, gap, which⟩ := h
  rcases head_of_gap gap first with rfl | soft
  · have each : d = '?' ∨ isOperator d = true := which.imp id And.left
    refine ⟨?_, ?_, ?_⟩ <;> rintro rfl <;> revert each <;> decide
  · refine ⟨?_, ?_, ?_⟩ <;> rintro rfl <;> cases newlines <;> cases soft

/-- In front of a step or an operator there are no arguments of a call. -/
theorem Goes.call {newlines : Bool} {t : Chars} (h : Goes newlines t) (function : Chars) :
    callTail nested function t = none := by
  obtain ⟨c, u, here, -, which⟩ := h.skip
  refine callTail_eq_none fun first => ?_
  rw [here] at first
  obtain rfl := Option.some.inj first
  revert which
  decide

/-- What goes on with an operator does not go on with a step. -/
theorem Goes.step {newlines : Bool} {t : Chars} (h : Goes newlines t) :
    Grammar.step nested newlines t = none := by
  obtain ⟨c, u, -, here, which⟩ := h.skip
  have other : c ≠ '[' ∧ c ≠ '.' := by
    constructor <;> rintro rfl <;> revert which <;> decide
  refine step_eq_none (fun first => ?_) fun v same => ?_
  · rw [here] at first
    exact other.1 (Option.some.inj first)
  · rw [here] at same
    exact absurd (List.cons.inj same).1 other.2

/-- Where a step goes on, no call does. -/
theorem callTail_of_step {newlines : Bool} {t : Chars} {x : Step × Chars}
    (run : Grammar.step nested newlines t = some x) (function : Chars) :
    callTail nested function t = none := by
  rw [step_eq] at run
  obtain ⟨b, u, gap, more⟩ := bind_eq_some_iff.mp run
  obtain ⟨c, v, ok, rfl⟩ := leads_stepTail b _ _ more
  have firm : Blank.soft true c = false ∧ c ≠ '(' := by
    simp only [Bool.or_eq_true, beq_iff_eq] at ok
    rcases ok with rfl | rfl <;> decide
  have stays := Blank.gap_eq_of_token_eq_none (Blank.token_eq_none firm.1 v)
  have here : Blank.skip true t = c :: v := by
    cases newlines with
    | true => exact Blank.skip_eq_of_gap gap
    | false =>
      rw [← Blank.skip_skip, Blank.skip_eq_of_gap gap]
      exact Blank.skip_eq_of_gap stays
  refine callTail_eq_none fun first => ?_
  rw [here] at first
  exact firm.2 (Option.some.inj first)

/-- What is behind a term: the steps and an operator. -/
def termTail (newlines : Bool) (ops : List UnaryOp) (x : Node × Bool) : Scan Node := do
  let steps ← Scan.many (Grammar.step nested (newlines || x.2))
  operation nested (newlines || x.2) (withSign ops (selected x.1 steps))

theorem expression_eq (newlines : Bool) : expression nested newlines = (do
    let ops ← Scan.many unaryOp
    let x ← term nested
    termTail newlines ops x) := rfl

/-- What is behind a term is nothing, or two characters at least that make no call of it. -/
theorem termTail_spec {newlines : Bool} {ops : List UnaryOp} {x : Node × Bool} {node : Node}
    {w r : Chars} (run : termTail newlines ops x (w ++ r) = some (node, r)) :
    w = [] ∨ 2 ≤ w.length ∧ w.head? ≠ some 'e' ∧ w.head? ≠ some 'E' ∧
      ∀ function, callTail nested function (w ++ r) = none := by
  obtain ⟨steps, t, repeated, more⟩ := bind_eq_some_iff.mp run
  have front : ∀ {c}, w.head? = some c → (w ++ r).head? = some c := by
    intro c first
    rw [List.head?_append, first]
    rfl
  -- What was taken, if anything, begins with a step or an operator, and neither begins like an
  -- exponent.
  cases many_iff_chain.mp repeated with
  | nil =>
    rcases goes_of_operation more with rfl | ⟨long, goes⟩
    · exact .inl rfl
    · refine .inr ⟨long, fun first => ?_, fun first => ?_, goes.call⟩
      · exact (goes.head (front first)).1 rfl
      · exact (goes.head (front first)).2.1 rfl
  | cons taken _ chain =>
    have long := twice_step _ _ _ _ taken
    obtain ⟨y, split⟩ := shortens_steps _ _ _ _ (many_eq_some_of_chain chain)
    obtain ⟨z, split'⟩ := shortens_operation _ _ _ _ _ more
    have other : ∀ {c}, w.head? = some c → c ≠ 'e' ∧ c ≠ 'E' := by
      intro c first
      rcases head_of_step taken (front first) with soft | rfl | rfl
      · constructor <;> rintro rfl <;> revert soft <;> cases newlines <;> cases x.2 <;> decide
      · decide
      · decide
    refine .inr ⟨length_of_takes (?_ : r.length + 2 ≤ (w ++ r).length), fun first =>
      (other first).1 rfl, fun first => (other first).2 rfl, callTail_of_step taken⟩
    rw [split, split'] at long
    simp only [List.length_append] at long ⊢
    omega

/-- A value with its signs weighs no more than both. -/
theorem weight_withSign (ops : List UnaryOp) (operand : Node) :
    weight (withSign ops operand).chars ≤ total
      (fun op => weight op.chars) ops + weight operand.chars := by
  rw [withSign]
  split
  case h_1 op last =>
    have light := @le_total _ (fun op => weight (UnaryOp.chars op)) _ _ (List.mem_of_getLast? last)
    simp only [Node.chars, Expr.chars, Layout.around, Layout.written, Option.getD_some,
      weight_append, weight_nil]
    omega
  case h_2 => omega

theorem whole_of_withSign {ops : List UnaryOp} {operand : Node}
    (whole : (withSign ops operand).Whole) : operand.Whole := by
  rw [withSign] at whole
  split at whole
  case h_1 => exact whole
  case h_2 => exact whole

/-- A value with its steps weighs what they weigh together. -/
theorem weight_selected (base : Node) (steps : List Step) :
    weight (selected base steps).chars = weight base.chars + total
      (fun step => weight step.chars) steps := by
  cases steps with
  | nil => simp [selected]
  | cons step rest =>
    simp only [selected, List.isEmpty_cons, Bool.false_eq_true, if_false, Node.chars, Expr.chars,
      Layout.around, Layout.written, Option.getD_some, weight_append, weight_nil, weight_stepsChars]
    omega

theorem whole_of_selected {base : Node} {steps : List Step} (whole : (selected base steps).Whole) :
    base.Whole ∧ ∀ step ∈ steps, step.Whole := by
  cases steps with
  | nil => exact ⟨whole, nofun⟩
  | cons step rest => exact ⟨whole.1, wholeSteps_iff.mp whole.2⟩

/-! ### Expressions -/

section Productions

variable {n : Nat} (h : ∀ newlines, Replays n 0 True Node.gauge Follow (nested newlines))
include h

/-- What is behind a term is read again. -/
theorem replays_termTail {credit : Nat} {claim : Prop} (newlines : Bool) {ops : List UnaryOp}
    {x : Node × Bool}
    (paid : total (fun op => weight op.chars) ops + weight x.1.chars ≤ credit)
    (holds : x.1.Whole → claim) :
    Replays (n + 1) credit claim Node.gauge Follow (termTail newlines ops x) := by
  refine Replays.bind (replays_steps h (newlines || x.2)) (fun steps => ?_)
    fun steps node w rest rest' run run' follow => ?_
  · have light := weight_withSign ops (selected x.1 steps)
    rw [weight_selected] at light
    refine replays_operation h (newlines || x.2) ?_ fun whole => ?_
    · simp only [Gauge.list, Step.gauge]
      omega
    · have both := whole_of_selected (whole_of_withSign whole)
      exact ⟨holds both.1, both.2⟩
  · rcases goes_of_operation run with rfl | ⟨long, goes⟩
    · exact ⟨follow.alike, follow.settled.step _⟩
    · have other : ∀ {c}, w.head? = some c → c ≠ 'e' ∧ c ≠ 'E' ∧ c ≠ '(' := by
        intro c first
        refine goes.head ?_
        rw [List.head?_append, first]
        rfl
      refine ⟨alike_of_twice long (fun first => (other first).1 rfl)
        fun first => (other first).2.1 rfl, fun _ => ?_⟩
      rcases goes_of_operation run' with rfl | ⟨-, goes'⟩
      · cases long
      · exact goes'.step

omit h in
/-- What is behind a term ends it in the same way, wherever it stands. -/
theorem termEnd_of_termTail {newlines : Bool} {ops : List UnaryOp} {x : Node × Bool} {node : Node}
    {w rest rest' : Chars} (run : termTail newlines ops x (w ++ rest) = some (node, rest))
    (run' : termTail newlines ops x (w ++ rest') = some (node, rest'))
    (follow : Follow rest rest') : TermEnd (w ++ rest) (w ++ rest') := by
  rcases termTail_spec run with rfl | ⟨long, noExponent, noExponentToo, -⟩
  · exact ⟨follow.alike, follow.settled.call⟩
  · refine ⟨alike_of_twice long noExponent noExponentToo, fun function _ => ?_⟩
    rcases termTail_spec run' with rfl | ⟨-, -, -, none⟩
    · cases long
    · exact none function

/-- An expression is read again. -/
theorem replays_expression (keys : KeysSettle n) (newlines : Bool) :
    Replays (n + 1) 0 True Node.gauge Follow (expression nested newlines) := by
  rw [expression_eq]
  refine Replays.bind (replays_signs (n + 1))
    (fun ops => ?_) fun ops node w rest rest' run run' _ => ?_
  · refine Replays.bind (replays_term h keys) (fun x => ?_) fun _ _ _ _ _ run run' follow =>
      termEnd_of_termTail run run' follow
    refine replays_termTail h newlines ?_ fun whole => ⟨⟨trivial, fun _ _ => trivial⟩, whole⟩
    simp only [Gauge.list, termGauge]
    omega
  · obtain ⟨x, t, first, more⟩ := bind_eq_some_iff.mp run
    obtain ⟨x', t', first', -⟩ := bind_eq_some_iff.mp run'
    have shorter := advances_term _ _ _ first
    obtain ⟨y, rfl⟩ := ((shortens_steps _).bind fun _ => shortens_operation _ _) _ _ _ more
    cases w with
    | nil =>
      simp only [List.nil_append, List.length_append] at shorter
      omega
    | cons c w => exact signsEnd_of_term first first'

/-- The term of an expression without signs is replayed with the expression. -/
theorem term_again (keys : KeysSettle n) {newlines : Bool} {w r r' : Chars} {node : Node}
    (run : nested newlines (w ++ r) = some (node, r)) (noSign : unaryOp (w ++ r) = none)
    (bound : w.length ≤ n + 1) (tight : weight w ≤ weight node.chars) (whole : node.Whole)
    (follow : Follow r r') :
    ∃ x u v, w = u ++ v ∧ term nested (u ++ (v ++ r)) = some (x, v ++ r) ∧
      term nested (u ++ (v ++ r')) = some (x, v ++ r') ∧ weight u ≤ weight x.1.chars ∧
      x.1.Whole := by
  rw [nested_eq, expression_eq, bind_of_eq_some (many_unaryOp_nil noSign)] at run
  have tight : 0 + weight w ≤ Node.gauge.weight node := by simpa [Node.gauge] using tight
  obtain ⟨x, u, v, split, taken, -, heavy, sound, again⟩ :=
    (replays_term h keys).front
      (fun x => replays_termTail h newlines (by simp [termGauge]) fun whole => ⟨trivial, whole⟩)
      (fun _ _ _ _ _ run run' follow => termEnd_of_termTail run run' follow) run bound
      tight whole
  exact ⟨x, u, v, split, taken, (again r' follow).1, heavy, sound⟩

end Productions

end TerraformPins.Hcl.Grammar
