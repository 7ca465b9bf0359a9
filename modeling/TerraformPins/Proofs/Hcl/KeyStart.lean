import TerraformPins.Proofs.Hcl.Expression

/-!
# Keys behind a line end

Whether the value in front of a line end goes on with what is behind it, depends on the key there
and on nothing behind the key. A key in parentheses goes on with a word if it can be read as
arguments: it then ends its expressions at the same places as before, so that no line end has
mattered. A key in brackets goes on with a value in parentheses if it is a list of one item.

## Main results

* `Grammar.nested_across` — an expression that ends at a mark is read in the same way if line ends
  are allowed in front of operators
* `Grammar.keysSettle_succ` — keys settle whether the value in front of them goes on
-/

namespace TerraformPins.Hcl.Grammar

open Scan

/-! ### Line ends in front of operators -/

theorem gap_across {cs b t : Chars} (gap : Blank.gap false cs = some (b, t))
    (stays : Blank.token true t = none) : Blank.gap true cs = some (b, t) := by
  have more := Blank.gap_true_of_false gap (Blank.gap_eq_of_token_eq_none stays)
  rwa [List.append_nil] at more

theorem token_of_calm_mark {c : Char} {t : Chars} (mark : isMark c = true) :
    Blank.token true (c :: t) = none :=
  Blank.token_eq_none_of_hard (firm_of_mark mark t).hard

/-- A step inside a line is the same step across lines. -/
theorem step_across {cs : Chars} {x : Step × Chars} (run : step nested false cs = some x) :
    step nested true cs = some x := by
  rw [step_eq] at run ⊢
  obtain ⟨b, u, gap, more⟩ := bind_eq_some_iff.mp run
  obtain ⟨c, v, ok, rfl⟩ := leads_stepTail b _ _ more
  have firm : Blank.soft true c = false := by
    simp only [Bool.or_eq_true, beq_iff_eq] at ok
    rcases ok with rfl | rfl <;> decide
  rw [bind_of_eq_some (gap_across gap (Blank.token_eq_none firm v))]
  exact more

/-- Signs and a term make an expression, whatever is behind them. -/
theorem termTail_ne_none (newlines : Bool) (ops : List UnaryOp) (x : Node × Bool) (cs : Chars) :
    termTail newlines ops x cs ≠ none := by
  obtain ⟨steps, t, chain⟩ := exists_chain (step nested (newlines || x.2)) cs
  rw [termTail, bind_of_eq_some (many_eq_some_of_chain chain), operation_eq]
  intro failed
  exact absurd (orElse_eq_none_iff.mp (orElse_eq_none_iff.mp failed).2).2 (by simp)

theorem nested_eq_some_iff {newlines : Bool} {cs r : Chars} {node : Node} :
    nested newlines cs = some (node, r) ↔ ∃ ops t x u, Scan.many unaryOp cs = some (ops, t) ∧
      term nested t = some (x, u) ∧ termTail newlines ops x u = some (node, r) := by
  rw [nested_eq, expression_eq]
  constructor
  · intro run
    obtain ⟨ops, t, signs, more⟩ := bind_eq_some_iff.mp run
    obtain ⟨x, u, first, tail⟩ := bind_eq_some_iff.mp more
    exact ⟨ops, t, x, u, signs, first, tail⟩
  · rintro ⟨ops, t, x, u, signs, first, tail⟩
    exact bind_eq_some_iff.mpr ⟨ops, t, signs, bind_eq_some_iff.mpr ⟨x, u, first, tail⟩⟩

theorem gap_of_skip {cs b t : Chars} (gap : Blank.gap false cs = some (b, t))
    (skip : Blank.skip true cs = t) : Blank.gap true cs = some (b, t) := by
  obtain ⟨b', gap'⟩ := Blank.exists_gap true cs
  rw [skip] at gap'
  have same : b' ++ t = b ++ t := (Blank.gap_split gap').symm.trans (Blank.gap_split gap)
  rwa [List.append_cancel_right same] at gap'

section Across

variable {n : Nat} {first node : Node} {cs r : Chars}
  (ih : ∀ t node u, t.length < n → nested false t = some (node, u) → Calm (Blank.skip true u) →
    nested true t = some (node, u))

include ih

/-- The operands of an operator across lines. -/
theorem operand_across {e : Expr}
    (run : between (Blank.gap false) (nested false) (pure []) cs = some (e, r))
    (short : cs.length < n) (calm : Calm (Blank.skip true r)) :
    between (Blank.gap true) (nested true) (pure []) cs = some (e, r) := by
  obtain ⟨b, t, gap, more⟩ := bind_eq_some_iff.mp run
  obtain ⟨node, u, read, last⟩ := bind_eq_some_iff.mp more
  cases last
  have shorter := congrArg List.length (Blank.gap_split gap)
  rw [List.length_append] at shorter
  have gap' := gap_across gap (Blank.token_eq_none_of_hard (hard_of_nested read))
  rw [between, bind_of_eq_some gap', bind_of_eq_some (ih _ _ _ (by omega) read calm)]
  rfl

/-- The first branch behind a question mark. The colon ends it. -/
theorem branch_across {yes : Expr}
    (run : between (Blank.gap false) (nested false) (Blank.gap false) cs = some (yes, ':' :: r))
    (short : cs.length < n) :
    between (Blank.gap true) (nested true) (Blank.gap true) cs = some (yes, ':' :: r) := by
  obtain ⟨left, x, before, inner⟩ := bind_eq_some_iff.mp run
  obtain ⟨value, y, read, inner⟩ := bind_eq_some_iff.mp inner
  obtain ⟨right, z, after, last⟩ := bind_eq_some_iff.mp inner
  cases last
  have before' := gap_across before (Blank.token_eq_none_of_hard (hard_of_nested read))
  have after' := gap_across after (token_of_calm_mark (by decide))
  have lengths := congrArg List.length (Blank.gap_split before)
  rw [List.length_append] at lengths
  have calm : Calm (Blank.skip true y) := by
    rw [Blank.skip_eq_of_gap after']
    exact (firm_of_mark (by decide) r).calm
  rw [between, bind_of_eq_some before', bind_of_eq_some (ih _ _ _ (by omega) read calm),
    bind_of_eq_some after']
  rfl

/-- A question mark behind a term, and its branches. -/
theorem question_across (run : question nested false first cs = some (node, r))
    (short : cs.length < n) (calm : Calm (Blank.skip true r)) :
    step nested true cs = none ∧ question nested true first cs = some (node, r) := by
  obtain ⟨b, t, gap, more⟩ := bind_eq_some_iff.mp run
  obtain ⟨v, rfl, branches⟩ := exactly_bind_eq_some_iff.mp more
  obtain ⟨yes, t, taken, second⟩ := bind_eq_some_iff.mp branches
  obtain ⟨v', rfl, other⟩ := exactly_bind_eq_some_iff.mp second
  obtain ⟨no, t', operand, last⟩ := bind_eq_some_iff.mp other
  cases last
  -- The gap ends at the mark in both ways, since no blank space begins with a mark.
  have gap' := gap_across gap (Blank.token_eq_none (by decide) v)
  have shorter := congrArg List.length (Blank.gap_split gap)
  obtain ⟨w, split⟩ := ((shortens_gap false).bind fun _ => (shortens_nested false).bind
    fun _ => (shortens_gap false).bind fun _ => shortens_pure _) _ _ _ taken
  have shorter' := congrArg List.length split
  simp only [List.length_append, List.length_cons] at shorter shorter'
  refine ⟨step_eq_none (fun mark => ?_) fun u same => ?_, ?_⟩
  · rw [Blank.skip_eq_of_gap gap'] at mark
    cases mark
  · rw [Blank.skip_eq_of_gap gap'] at same
    cases same
  · have mark := exactly_append ['?'] v
    have colon := exactly_append [':'] v'
    have yes' : between (Blank.gap true) (nested true) (Blank.gap true) v =
        some (yes, [':'] ++ v') :=
      branch_across ih taken (by omega)
    rw [question, bind_of_eq_some gap', bind_of_eq_some mark, bind_of_eq_some yes',
      bind_of_eq_some colon, bind_of_eq_some (operand_across ih operand (by omega) calm)]
    rfl

/-- An operator behind a term, and its other operand. -/
theorem operator_across (run : operator nested false first cs = some (node, r))
    (short : cs.length < n) (calm : Calm (Blank.skip true r)) :
    step nested true cs = none ∧ question nested true first cs = none ∧
      operator nested true first cs = some (node, r) := by
  rw [operator_eq] at run
  obtain ⟨b, t, gap, more⟩ := bind_eq_some_iff.mp run
  obtain ⟨c, v, rfl, ok, slash⟩ := operatorTail_head more
  have goes : Goes false cs := ⟨b, c, v, gap, .inr ⟨ok, slash⟩⟩
  obtain ⟨c', v', across, inside, -⟩ := goes.skip
  rw [Blank.skip_eq_of_gap gap] at inside
  obtain ⟨rfl, rfl⟩ := List.cons.inj inside
  have gap' := gap_of_skip gap across
  have goes' : Goes true cs := ⟨b, c, v, gap', .inr ⟨ok, slash⟩⟩
  obtain ⟨op, t, taken, more⟩ := bind_eq_some_iff.mp more
  obtain ⟨right, t', operand, last⟩ := bind_eq_some_iff.mp more
  cases last
  have shorter := congrArg List.length (Blank.gap_split gap)
  have shorter' := advances_binaryOp _ _ _ taken
  simp only [List.length_append] at shorter
  refine ⟨goes'.step, question_eq_none fun mark => ?_, ?_⟩
  · rw [across] at mark
    obtain rfl := Option.some.inj mark
    exact absurd ok (by decide)
  · rw [operator, bind_of_eq_some gap', bind_of_eq_some taken,
      bind_of_eq_some (operand_across ih operand (by omega) calm)]
    rfl

/-- What is behind a term that ends at a mark. -/
theorem operation_across (run : operation nested false first cs = some (node, r))
    (short : cs.length < n) (calm : Calm (Blank.skip true r)) :
    step nested true cs = none ∧ operation nested true first cs = some (node, r) := by
  rw [operation_eq] at run ⊢
  rcases orElse_eq_some_iff.mp run with asked | ⟨-, run⟩
  · obtain ⟨noStep, again⟩ := question_across ih asked short calm
    exact ⟨noStep, orElse_of_eq_some again⟩
  rcases orElse_eq_some_iff.mp run with operated | ⟨-, plain⟩
  · obtain ⟨noStep, noQuestion, again⟩ := operator_across ih operated short calm
    rw [orElse_of_eq_none noQuestion]
    exact ⟨noStep, orElse_of_eq_some again⟩
  · cases plain
    refine ⟨step_eq_none calm.noIndex calm.noDot, ?_⟩
    rw [orElse_of_eq_none (question_eq_none calm.noQuestion),
      orElse_of_eq_none (operator_eq_none calm.noOperator)]
    rfl

end Across

/-- An expression that ends at a mark is read in the same way across lines. -/
theorem nested_across {t u : Chars} {node : Node} (run : nested false t = some (node, u))
    (calm : Calm (Blank.skip true u)) : nested true t = some (node, u) := by
  induction n : t.length using Nat.strongRecOn generalizing t node u with
  | ind n ih =>
    subst n
    obtain ⟨ops, t₁, x, t₂, signs, first, tail⟩ := nested_eq_some_iff.mp run
    refine nested_eq_some_iff.mpr ⟨ops, t₁, x, t₂, signs, first, ?_⟩
    obtain ⟨base, grouped⟩ := x
    cases grouped with
    | true => exact tail
    | false =>
      obtain ⟨steps, t₃, repeated, more⟩ := bind_eq_some_iff.mp tail
      -- the term takes something, so the operands are shorter
      have short : t₃.length < t.length := by
        have shorter := advances_term _ _ _ first
        obtain ⟨s, rfl⟩ := shortens_signs _ _ _ signs
        obtain ⟨s', rfl⟩ := shortens_steps _ _ _ _ repeated
        simp only [List.length_append] at shorter ⊢
        omega
      obtain ⟨stops, more'⟩ :=
        operation_across (fun t' node u short run calm => ih t'.length short run calm rfl)
        more short calm
      have steps' : Scan.many (step nested true) t₂ = some (steps, t₃) := by
        refine many_eq_some_of_chain ?_
        have chain := many_iff_chain.mp repeated
        clear repeated short first tail more more'
        induction chain with
        | nil => exact .nil fun a r taken => by rw [stops] at taken; cases taken
        | cons taken less _ ih => exact .cons (step_across taken) less (ih stops)
      exact bind_eq_some_iff.mpr ⟨steps, t₃, steps', more'⟩

/-! ### Signs and operators -/

theorem nested_ne_none {newlines : Bool} {cs t : Chars} {ops : List UnaryOp}
    {x : (Node × Bool) × Chars} (signs : Scan.many unaryOp cs = some (ops, t))
    (first : term nested t = some x) : nested newlines cs ≠ none := by
  obtain ⟨base, r⟩ := x
  rw [nested_eq, expression_eq, bind_of_eq_some signs, bind_of_eq_some first]
  exact termTail_ne_none _ _ _ _

/-- Behind a sign there is another expression. -/
theorem nested_of_sign {cs t : Chars} {op : UnaryOp} {x : Node × Chars}
    (run : nested false cs = some x) (sign : unaryOp cs = some (op, t)) (newlines : Bool) :
    nested newlines t ≠ none := by
  obtain ⟨ops, u, y, v, signs, first, -⟩ :=
    nested_eq_some_iff.mp (show nested false cs = some (x.1, x.2) from run)
  cases many_iff_chain.mp signs with
  | nil stops => exact absurd (advances_unaryOp _ _ _ sign) (stops op t sign)
  | cons taken _ chain =>
    rw [sign] at taken
    cases taken
    exact nested_ne_none (many_eq_some_of_chain chain) first

theorem operand_ne_none {newlines : Bool} {t b u : Chars} (gap : Blank.gap false t = some (b, u))
    (ok : nested newlines u ≠ none) :
    between (Blank.gap newlines) (nested newlines) (pure []) t ≠ none := by
  obtain ⟨⟨node, r⟩, read⟩ := Option.ne_none_iff_exists'.mp ok
  obtain ⟨c, v, start, rfl⟩ := leads_nested newlines _ _ read
  have gap' : Blank.gap newlines t = some (b, c :: v) := by
    cases newlines with
    | false => exact gap
    | true => exact gap_across gap (Blank.token_eq_none_of_hard (hard_of_isStart start))
  rw [between, bind_of_eq_some gap', bind_of_eq_some read]
  exact Option.some_ne_none _

theorem term_of_digits {c : Char} {u : Chars} {x : Chars × Chars}
    (run : Number.unsigned (c :: u) = some x) (digit : c.isDigit = true) :
    term nested (c :: u) = some ((.number x.1, false), x.2) := by
  have other : ∀ m : Char, m.isDigit = false → c ≠ m := by
    rintro m no rfl
    rw [no] at digit
    cases digit
  have none : ∀ {p : Scan Node} {m : Char}, Leads (· == m) p → m.isDigit = false →
      p (c :: u) = none :=
    fun leads no => leads.eq_none (beq_eq_false_iff_ne.mpr (other _ no))
  rw [term, orElse_of_eq_none, map_apply, orElse_of_eq_none (none leads_quoted (by decide)),
    orElse_of_eq_none (none leads_list (by decide)),
    orElse_of_eq_none (none leads_object (by decide))]
  · have number : (Number.unsigned <|> Number.signed) (c :: u) = some x := orElse_of_eq_some run
    rw [orElse_of_eq_some (x := (.number x.1, x.2)) (by rw [map_apply, number]; rfl)]
    rfl
  · rw [map_apply, none leads_group (by decide)]
    rfl

/-- What begins with a minus sign can be subtracted. -/
theorem operator_of_minus {newlines : Bool} {first : Node} {t : Chars} {x : Node × Chars}
    (run : nested false ('-' :: t) = some x) :
    operator nested newlines first ('-' :: t) ≠ none := by
  obtain ⟨b, gap⟩ := Blank.exists_gap false t
  have operand : between (Blank.gap newlines) (nested newlines) (pure []) t ≠ none := by
    refine operand_ne_none gap ?_
    by_cases number : Number.signed ('-' :: t) = none
    · have sign : unaryOp ('-' :: t) = some (.negate, Blank.skip false t) :=
        unaryOp_eq_some_iff.mpr ⟨t, b, gap, .inr ⟨rfl, rfl, number⟩⟩
      exact nested_of_sign run sign newlines
    · -- Otherwise the minus is the sign of a number, and the number without it is the operand.
      rw [signed_eq_none_iff gap] at number
      obtain ⟨y, digits⟩ := Option.ne_none_iff_exists'.mp number
      obtain ⟨c, u, digit, same⟩ := Number.leads_unsigned _ _ digits
      rw [same] at digits ⊢
      have first := term_of_digits digits digit
      exact nested_ne_none (many_unaryOp_nil (unaryOp_eq_none_of_term first)) first
  have firm : Blank.soft newlines '-' = false := by cases newlines <;> rfl
  have here := Blank.gap_eq_of_token_eq_none (Blank.token_eq_none firm t)
  obtain ⟨⟨right, r⟩, taken⟩ := Option.ne_none_iff_exists'.mp operand
  have minus : binaryOp ('-' :: t) = some (.minus, t) := rfl
  rw [operator, bind_of_eq_some here, bind_of_eq_some minus, bind_of_eq_some taken]
  exact Option.some_ne_none _

theorem heredoc_of_term {t r : Chars} {base : Node} {grouped : Bool}
    (run : term nested ('<' :: t) = some ((base, grouped), r)) :
    heredoc nested ('<' :: t) = some (base, r) := by
  rcases term_head run with ⟨h, -⟩ | h | ⟨h, -⟩ | h | h | ⟨-, h⟩ | ⟨h, -⟩
  case inr.inr.inr.inr.inr.inl => exact h
  all_goals exact absurd h (by decide)

theorem group_of_term {t r : Chars} {base : Node} {grouped : Bool}
    (run : term nested ('(' :: t) = some ((base, grouped), r)) :
    group nested ('(' :: t) = some (base, r) := by
  rcases term_head run with ⟨-, h⟩ | h | ⟨h, -⟩ | h | h | ⟨h, -⟩ | ⟨h, -⟩
  case inl => exact h
  all_goals exact absurd h (by decide)

theorem list_of_term {t r : Chars} {base : Node} {grouped : Bool}
    (run : term nested ('[' :: t) = some ((base, grouped), r)) :
    list nested ('[' :: t) = some (base, r) := by
  rcases term_head run with ⟨h, -⟩ | h | ⟨-, h⟩ | h | h | ⟨h, -⟩ | ⟨h, -⟩
  case inr.inr.inl => exact h
  all_goals exact absurd h (by decide)

/-- The opening mark of a heredoc is no operator in front of an operand. -/
theorem operator_of_fence {newlines : Bool} {first : Node} {t : Chars} {x : Node × Chars}
    (run : nested false ('<' :: t) = some x) :
    operator nested newlines first ('<' :: t) = none := by
  have sign : ∀ t, unaryOp ('<' :: t) = none := fun t => leads_unaryOp.eq_none (by decide)
  obtain ⟨ops, u, ⟨base, grouped⟩, v, signs, taken, -⟩ :=
    nested_eq_some_iff.mp (show nested false ('<' :: t) = some (x.1, x.2) from run)
  rw [many_unaryOp_nil (sign t)] at signs
  cases signs
  obtain ⟨t', same, more⟩ := exactly_bind_eq_some_iff.mp (heredoc_of_term taken)
  obtain rfl : t = '<' :: t' := (List.cons.inj same).2
  -- a dash or a word follows
  have single : t'.head? ≠ some '<' := by
    obtain ⟨dash, u, optional, more⟩ := bind_eq_some_iff.mp more
    obtain ⟨word, u', read, -⟩ := bind_eq_some_iff.mp more
    obtain ⟨c, z, start, rfl⟩ := leads_identifier _ _ read
    rcases optional_eq_some_iff.mp optional with ⟨a, -, dashed⟩ | ⟨-, -, same⟩
    · obtain ⟨-, rfl⟩ := exactly_eq_some_iff.mp dashed
      simp
    · rw [← same]
      intro first
      obtain rfl := Option.some.inj first
      exact absurd start (by decide)
  have noOperand : ∀ newlines, nested newlines ('<' :: t') = none := by
    refine fun newlines => Option.eq_none_iff_forall_ne_some.mpr fun y read => ?_
    obtain ⟨ops, u, ⟨base, grouped⟩, v, signs, taken, -⟩ :=
      nested_eq_some_iff.mp (show nested newlines ('<' :: t') = some (y.1, y.2) from read)
    rw [many_unaryOp_nil (sign t')] at signs
    cases signs
    obtain ⟨t'', same, -⟩ := exactly_bind_eq_some_iff.mp (heredoc_of_term taken)
    rw [(List.cons.inj same).2] at single
    exact single rfl
  have firm : Blank.soft newlines '<' = false := by cases newlines <;> rfl
  have here := Blank.gap_eq_of_token_eq_none (Blank.token_eq_none firm ('<' :: t'))
  have here' := Blank.gap_eq_of_token_eq_none (Blank.token_eq_none firm t')
  have below : binaryOp ('<' :: '<' :: t') = some (.below, '<' :: t') := rfl
  rw [operator, bind_of_eq_some here, bind_of_eq_some below]
  refine bind_of_eq_none ?_
  rw [between, bind_of_eq_some here', bind_of_eq_none (noOperand newlines)]

/-- Behind a negation stands no equals sign. -/
theorem binaryOp_of_bang {t : Chars} {x : Node × Chars} (run : nested false ('!' :: t) = some x) :
    binaryOp ('!' :: t) = none := by
  obtain ⟨b, gap⟩ := Blank.exists_gap false t
  have sign : unaryOp ('!' :: t) = some (.complement, Blank.skip false t) :=
    unaryOp_eq_some_iff.mpr ⟨t, b, gap, .inl ⟨rfl, rfl⟩⟩
  obtain ⟨y, read⟩ := Option.ne_none_iff_exists'.mp (nested_of_sign run sign false)
  obtain ⟨c, u, start, same⟩ := leads_nested false _ _ read
  rw [same] at gap
  have single : t.head? ≠ some '=' := by
    intro first
    rcases head_of_gap gap first with rfl | soft
    · exact absurd start (by decide)
    · exact absurd soft (by decide)
  cases t with
  | nil => rfl
  | cons d t =>
    show binaryOp ('!' :: d :: t) = none
    unfold binaryOp
    split <;> simp_all

/-- Whether a key is taken for an operand does not depend on what is behind it. -/
theorem operator_settled {newlines : Bool} {first : Node} {s s' : Chars} {x x' : Node × Chars}
    (run : nested false s = some x) (run' : nested false s' = some x') (same : s.head? = s'.head?)
    (failed : operator nested newlines first s = none) :
    operator nested newlines first s' = none := by
  obtain ⟨c, t, start, rfl⟩ := leads_nested false _ _ run
  obtain ⟨c', t', start', rfl⟩ := leads_nested false _ _ run'
  obtain rfl := Option.some.inj same
  -- Operators and expressions share three first characters only; each needs its own reason.
  by_cases minus : c = '-'
  · subst minus
    exact absurd failed (operator_of_minus run)
  by_cases fence : c = '<'
  · subst fence
    exact operator_of_fence run'
  have firm := Blank.skip_eq_of_hard (@hard_of_isStart newlines c t' start)
  refine operator_eq_none ?_
  rw [firm]
  by_cases bang : c = '!'
  · subst bang
    exact binaryOp_of_bang run'
  · refine leads_binaryOp.eq_none ?_
    rw [Bool.eq_false_iff]
    intro ok
    have each := List.contains_iff_mem.mp ok
    simp only [List.mem_cons, List.not_mem_nil, or_false, minus, fence, bang, false_or] at each
    rcases each with rfl | rfl | rfl | rfl | rfl | rfl | rfl | rfl <;>
      exact absurd start (by decide)

/-! ### Lists and indexes -/

theorem term_of_word {c : Char} {u : Chars} {x x' : Node × Chars}
    (run : nested false (c :: u) = some x) (word : isWordStart c = true)
    (name : nameOrCall nested (c :: u) = some x') (calm : Calm (Blank.skip true x'.2)) :
    x = x' := by
  have plain : c.isDigit = false ∧ c ≠ '-' ∧ c ≠ '!' ∧ c ≠ '(' ∧ c ≠ '"' ∧ c ≠ '[' ∧ c ≠ '{' ∧
      c ≠ '<' := by
    refine ⟨isDigit_of_isWordStart word, ?_, ?_, ?_, ?_, ?_, ?_, ?_⟩ <;> rintro rfl <;>
      revert word <;> decide
  obtain ⟨ops, t, ⟨base, grouped⟩, v, signs, taken, tail⟩ :=
    nested_eq_some_iff.mp (show nested false (c :: u) = some (x.1, x.2) from run)
  rw [many_unaryOp_nil (leads_unaryOp.eq_none (by simp [plain]))] at signs
  cases signs
  rcases term_head taken with ⟨h, -⟩ | h | ⟨h, -⟩ | h | h | ⟨h, -⟩ | ⟨-, rfl, h⟩
  case inr.inr.inr.inr.inr.inr =>
    rw [name] at h
    cases h
    -- nothing goes on behind the word
    have stops : step nested false v = none :=
      step_eq_none (calm.skip false).noIndex (calm.skip false).noDot
    have steps : Scan.many (step nested false) v = some ([], v) :=
      many_eq_some_of_chain (.nil fun a r taken => by rw [stops] at taken; cases taken)
    obtain ⟨steps', w, repeated, more⟩ := bind_eq_some_iff.mp tail
    rw [Bool.or_self, steps] at repeated
    cases repeated
    rw [Bool.or_self, operation_eq,
      orElse_of_eq_none (question_eq_none (calm.skip false).noQuestion),
      orElse_of_eq_none (operator_eq_none (calm.skip false).noOperator)] at more
    cases more
    rfl
  all_goals simp [plain] at h

theorem calm_of_isWordStart {c : Char} (word : isWordStart c = true) (t : Chars) :
    Calm (c :: t) := by
  have other : ∀ m : Char, isWordStart m = false → c ≠ m := by
    rintro m no rfl
    rw [no] at word
    cases word
  refine ⟨?_, ?_, ?_, leads_binaryOp.eq_none ?_, fun u same => ?_⟩
  · simpa using other '(' (by decide)
  · simpa using other '[' (by decide)
  · simpa using other '?' (by decide)
  · rw [Bool.eq_false_iff]
    intro ok
    have each := List.contains_iff_mem.mp ok
    simp only [List.mem_cons, List.not_mem_nil, or_false] at each
    rcases each with rfl | rfl | rfl | rfl | rfl | rfl | rfl | rfl | rfl | rfl | rfl <;>
      exact absurd word (by decide)
  · exact absurd (List.cons.inj same).1 (other '.' (by decide))

theorem identifier_for {q : Chars} (stops : ∀ c, q.head? = some c → isWordPart c = false) :
    identifier ('f' :: 'o' :: 'r' :: q) = some (['f', 'o', 'r'], q) := by
  have letter : one isWordStart ('f' :: 'o' :: 'r' :: q) = some ('f', 'o' :: 'r' :: q) := rfl
  have more : Scan.run isWordPart ('o' :: 'r' :: q) = some (['o', 'r'], q) :=
    run_append (w := ['o', 'r']) (List.all_eq_true.mp (by decide)) stops
  rw [identifier, bind_of_eq_some letter, bind_of_eq_some more]
  rfl

/-- The word in front of a loop ends where its letters do. -/
theorem front_of_beginsLoop {t u b : Chars} (loops : beginsLoop t = true)
    (gap : Blank.across t = some (b, u)) :
    ∃ q, u = 'f' :: 'o' :: 'r' :: q ∧ ∀ c, q.head? = some c → isWordPart c = false := by
  obtain ⟨y, seen⟩ := Option.isSome_iff_exists.mp loops
  obtain ⟨b', u', gap', more⟩ := bind_eq_some_iff.mp (show _ = some (y.1, y.2) from seen)
  rw [gap] at gap'
  cases gap'
  obtain ⟨q, rfl, ends⟩ := exactly_bind_eq_some_iff.mp more
  obtain ⟨ended, front⟩ := one_eq_some_iff.mp ends
  refine ⟨q, rfl, fun c first => ?_⟩
  rw [front] at first
  obtain rfl := Option.some.inj first
  simp only [Bool.or_eq_true, beq_iff_eq] at ended
  rcases ended with ((same | same) | same) | same <;> rw [same] <;> decide

/-- Behind the word in front of a loop the next word begins. -/
theorem word_of_listForTail {t b q : Chars} {x : Node × Chars}
    (tail : listForTail nested t = some x)
    (gap : Blank.across t = some (b, 'f' :: 'o' :: 'r' :: q)) :
    ∃ c w, isWordStart c = true ∧ Blank.skip true q = c :: w := by
  obtain ⟨head, v, first, -⟩ := bind_eq_some_iff.mp tail
  obtain ⟨b', u, gap', loop⟩ := bind_eq_some_iff.mp first
  rw [gap] at gap'
  cases gap'
  obtain ⟨q', same, words⟩ := exactly_bind_eq_some_iff.mp loop
  obtain rfl :=
    List.append_cancel_left (show ['f', 'o', 'r'] ++ q = ['f', 'o', 'r'] ++ q' from same)
  obtain ⟨word, q₁, taken, -⟩ := bind_eq_some_iff.mp words
  obtain ⟨b₁, u₁, gap₁, inner⟩ := bind_eq_some_iff.mp taken
  obtain ⟨letters, w₁, read, -⟩ := bind_eq_some_iff.mp inner
  obtain ⟨c, w, start, rfl⟩ := leads_identifier _ _ read
  exact ⟨c, w, start, Blank.skip_eq_of_across gap₁⟩

/-- Where a loop is read, no index is. -/
theorem spaced_of_listFor {t : Chars} {x : Node × Chars} {e : Expr} {z : Chars}
    (loops : beginsLoop t = true) (tail : listForTail nested t = some x) :
    spaced nested t ≠ some (e, ']' :: z) := by
  intro item
  obtain ⟨b, u, gap, inner⟩ := bind_eq_some_iff.mp item
  obtain ⟨q, rfl, stops⟩ := front_of_beginsLoop loops gap
  obtain ⟨c, w, start, behind⟩ := word_of_listForTail tail gap
  have calm : Calm (Blank.skip true q) := by
    rw [behind]
    exact calm_of_isWordStart start w
  -- as an expression it is a name, with the other word behind it
  have name : nameOrCall nested ('f' :: 'o' :: 'r' :: q) = some (.name ['f', 'o', 'r'], q) := by
    rw [nameOrCall, bind_of_eq_some (identifier_for stops),
      orElse_of_eq_none (callTail_eq_none calm.noCall)]
    rfl
  obtain ⟨node, u₁, expr, after⟩ := bind_eq_some_iff.mp inner
  have same := term_of_word expr (by decide) name calm
  cases same
  obtain ⟨right, u₂, gap₂, last⟩ := bind_eq_some_iff.mp after
  cases last
  have bracket := Blank.skip_eq_of_across gap₂
  rw [behind] at bracket
  obtain ⟨rfl, -⟩ := List.cons.inj bracket
  exact absurd start (by decide)

theorem list_eq_some_iff {t r : Chars} {node : Node} : list nested ('[' :: t) = some (node, r) ↔
    (if beginsLoop t then listForTail nested else listTail nested) t = some (node, r) := by
  have taken : exactly ['['] ('[' :: t) = some (['['], t) := exactly_append ['['] t
  have seen : seesLoop t = some (beginsLoop t, t) := rfl
  rw [list, bind_of_eq_some taken, bind_of_eq_some seen]

/-- An index and a list of one item are the same text. -/
theorem list_single {t r z : Chars} {node : Node} {e : Expr}
    (run : list nested ('[' :: t) = some (node, r)) (item : spaced nested t = some (e, ']' :: z)) :
    node = .list [e] false [] := by
  rw [list_eq_some_iff] at run
  split at run
  case isTrue loops => exact absurd item (spaced_of_listFor loops run)
  case isFalse =>
    obtain ⟨items, u, found, more⟩ := bind_eq_some_iff.mp run
    rw [items_of_single item (nextItem_eq_none (by decide))] at found
    cases found
    obtain ⟨comma, v, optional, closing⟩ := bind_eq_some_iff.mp more
    have noComma : Scan.optional (exactly [',']) (']' :: z) = some (none, ']' :: z) :=
      optional_of_eq_none (exactly_cons_eq_none (by decide))
    rw [noComma] at optional
    cases optional
    obtain ⟨b, gap, same⟩ := closing_eq_some_iff.mp closing
    have stays : Blank.across (']' :: z) = some ([], ']' :: z) :=
      Blank.across_eq_of_token_eq_none (token_of_calm_mark (by decide))
    rw [stays] at gap
    cases gap
    exact same

theorem spaced_of_single {t r : Chars} {e : Expr}
    (run : list nested ('[' :: t) = some (.list [e] false [], r)) :
    spaced nested t = some (e, ']' :: r) := by
  rw [list_eq_some_iff] at run
  split at run
  case isTrue =>
    obtain ⟨head, u, -, more⟩ := bind_eq_some_iff.mp run
    obtain ⟨u', -, more⟩ := exactly_bind_eq_some_iff.mp more
    obtain ⟨value, v, -, more⟩ := bind_eq_some_iff.mp more
    obtain ⟨condition, v', -, more⟩ := bind_eq_some_iff.mp more
    obtain ⟨w, -, last⟩ := exactly_bind_eq_some_iff.mp more
    cases last
  case isFalse =>
    obtain ⟨items, u, found, more⟩ := bind_eq_some_iff.mp run
    rw [items_eq] at found
    rcases orElse_eq_some_iff.mp found with first | ⟨-, nothing⟩
    · obtain ⟨e', v, item, rest⟩ := bind_eq_some_iff.mp first
      obtain ⟨others, v', repeated, last⟩ := bind_eq_some_iff.mp rest
      cases last
      obtain ⟨comma, w, optional, closing⟩ := bind_eq_some_iff.mp more
      obtain ⟨b, gap, same⟩ := closing_eq_some_iff.mp closing
      simp only [Node.list.injEq, List.cons.injEq] at same
      obtain ⟨⟨rfl, rfl⟩, noComma, rfl⟩ := same
      -- nothing is taken behind the only item
      cases many_iff_chain.mp repeated
      rcases optional_eq_some_iff.mp optional with ⟨a, rfl, -⟩ | ⟨-, -, rfl⟩
      · cases noComma
      · rw [item, Blank.across_split gap]
        rfl
    · cases nothing
      obtain ⟨comma, w, optional, closing⟩ := bind_eq_some_iff.mp more
      obtain ⟨b, gap, same⟩ := closing_eq_some_iff.mp closing
      cases same

/-- A list does not begin with a star. -/
theorem list_ne_star {t z b : Chars} {x : Node × Chars} (run : list nested ('[' :: t) = some x)
    (gap : Blank.across t = some (b, '*' :: z)) : False := by
  have run : list nested ('[' :: t) = some (x.1, x.2) := run
  rw [list_eq_some_iff] at run
  -- A star is neither the word of a loop nor the start of an item.
  split at run
  case isTrue =>
    obtain ⟨head, u, first, -⟩ := bind_eq_some_iff.mp run
    obtain ⟨b', u', gap', loop⟩ := bind_eq_some_iff.mp first
    rw [gap] at gap'
    cases gap'
    obtain ⟨q, same, -⟩ := exactly_bind_eq_some_iff.mp loop
    cases same
  case isFalse =>
    obtain ⟨items, u, found, more⟩ := bind_eq_some_iff.mp run
    have noItem : spaced nested t = none := by
      refine spaced_eq_none fun c first => ?_
      rw [Blank.skip_eq_of_across gap] at first
      obtain rfl := Option.some.inj first
      decide
    rw [items_of_none noItem] at found
    cases found
    obtain ⟨comma, w, optional, closing⟩ := bind_eq_some_iff.mp more
    cases optional
    obtain ⟨b', gap', -⟩ := closing_eq_some_iff.mp closing
    rw [gap] at gap'
    cases gap'

/-- Whether a list is taken for an index does not depend on what is behind it. -/
theorem step_settled {newlines : Bool} {t t' r r' : Chars} {base : Node}
    (run : list nested ('[' :: t) = some (base, r))
    (run' : list nested ('[' :: t') = some (base, r'))
    (failed : step nested newlines ('[' :: t) = none) :
    step nested newlines ('[' :: t') = none := by
  have firm : Blank.soft newlines '[' = false := by cases newlines <;> rfl
  have here : ∀ t, step nested newlines ('[' :: t) = (starStep [] <|> indexStep []) ('[' :: t) := by
    intro t
    rw [step_eq, bind_of_eq_some (Blank.gap_eq_of_token_eq_none (Blank.token_eq_none firm t)),
      orElse_of_eq_none ((leads_dotStep []).eq_none (by decide))]
  rw [here] at failed ⊢
  refine Option.eq_none_iff_forall_ne_some.mpr fun x taken => ?_
  rcases orElse_eq_some_iff.mp (show _ = some (x.1, x.2) from taken) with star | ⟨-, index⟩
  · obtain ⟨u, same, more⟩ := exactly_bind_eq_some_iff.mp star
    obtain rfl : t' = u := (List.cons.inj same).2
    obtain ⟨left, v, gap, more⟩ := bind_eq_some_iff.mp more
    obtain ⟨z, rfl, -⟩ := exactly_bind_eq_some_iff.mp more
    exact list_ne_star run' gap
  · obtain ⟨u, same, more⟩ := exactly_bind_eq_some_iff.mp index
    obtain rfl : t' = u := (List.cons.inj same).2
    obtain ⟨e, v, item, more⟩ := bind_eq_some_iff.mp more
    obtain ⟨z, rfl, -⟩ := exactly_bind_eq_some_iff.mp more
    obtain rfl := list_single run' item
    -- the same list stands in the other text
    have item' := spaced_of_single run
    have found : indexStep [] ('[' :: t) = some (.index [] e, r) :=
      exactly_bind_eq_some_iff.mpr ⟨t, rfl, bind_eq_some_iff.mpr ⟨e, ']' :: r, item',
        exactly_bind_eq_some_iff.mpr ⟨r, rfl, rfl⟩⟩⟩
    rw [orElse_eq_none_iff] at failed
    rw [found] at failed
    cases failed.2

/-- Blank space in front of an expression changes nothing of what it goes on with. -/
theorem settled_of_across {b s s' : Chars} {x x' : Node × Chars} (run : nested false s = some x)
    (run' : nested false s' = some x') (gap : Blank.gap true (b ++ s) = some (b, s))
    (gap' : Blank.gap true (b ++ s') = some (b, s')) (h : Settled s s') :
    Settled (b ++ s) (b ++ s') := by
  have skip := Blank.skip_eq_of_gap gap
  have skip' := Blank.skip_eq_of_gap gap'
  obtain ⟨c, t, start, rfl⟩ := leads_nested false _ _ run
  obtain ⟨c', t', start', rfl⟩ := leads_nested false _ _ run'
  by_cases line : Blank.token true (Blank.skip false (b ++ c' :: t')) = none
  · -- no line ends: the space is space inside a line in both texts
    obtain ⟨a, inside'⟩ := Blank.exists_gap false (b ++ c' :: t')
    have across := Blank.gap_true_of_false inside' (Blank.gap_eq_of_token_eq_none line)
    rw [gap', List.append_nil] at across
    obtain ⟨rfl, same⟩ := Prod.mk.inj (Option.some.inj across)
    rw [← same] at inside'
    have near : Near false (c' :: t') (c :: t) := near_of_start start' start
    have inside := Blank.gap_again inside' near
    have skips : ∀ newlines, Blank.skip newlines (b ++ c :: t) = c :: t ∧
        Blank.skip newlines (b ++ c' :: t') = c' :: t' := by
      intro newlines
      cases newlines with
      | true => exact ⟨skip, skip'⟩
      | false => exact ⟨Blank.skip_eq_of_gap inside, Blank.skip_eq_of_gap inside'⟩
    refine ⟨fun function failed => ?_, fun newlines failed => ?_, fun newlines first failed => ?_,
      fun newlines first failed => ?_⟩
    · rw [← callTail_skip, skip']
      rw [← callTail_skip, skip] at failed
      exact h.call function failed
    · rw [← step_skip, (skips newlines).2]
      rw [← step_skip, (skips newlines).1] at failed
      exact h.step newlines failed
    · rw [← question_skip, (skips newlines).2]
      rw [← question_skip, (skips newlines).1] at failed
      exact h.question newlines first failed
    · rw [← operator_skip, (skips newlines).2]
      rw [← operator_skip, (skips newlines).1] at failed
      exact h.operator newlines first failed
  · refine h.of_line ?_ ?_ line
    · rw [skip, Blank.skip_eq_of_hard (hard_of_isStart start)]
    · rw [skip', Blank.skip_eq_of_hard (hard_of_isStart start')]

/-! ### Parentheses and arguments -/

/-- A value in parentheses can be read as the only argument of a call. -/
theorem callTail_of_single {q z : Chars} {e : Expr} (item : spaced nested q = some (e, ')' :: z))
    (function : Chars) : callTail nested function ('(' :: q) ≠ none := by
  have taken : exactly ['('] ('(' :: q) = some (['('], q) := exactly_append ['('] q
  have found : items nested q = some ([e], ')' :: z) :=
    items_of_single item (nextItem_eq_none (by decide))
  have ending : callEnd (')' :: z) = some (.plain, ')' :: z) := rfl
  have closing : Blank.across (')' :: z) = some ([], ')' :: z) :=
    Blank.across_eq_of_token_eq_none (token_of_calm_mark (by decide))
  rw [callTail,
    bind_of_eq_some (Blank.across_eq_of_token_eq_none (Blank.token_eq_none (by decide) q)),
    bind_of_eq_some taken, bind_of_eq_some found, List.isEmpty_cons, if_neg (by simp),
    bind_of_eq_some ending]
  dsimp only
  rw [bind_of_eq_some closing]
  exact Option.some_ne_none _

/-- The first argument of a call ends at a mark. -/
theorem spaced_of_callTail {function q : Chars} {c : Char} {u : Chars} {x : Node × Chars}
    (run : callTail nested function ('(' :: q) = some x) (front : Blank.skip true q = c :: u)
    (start : isStart c = true) : ∃ e t, spaced nested q = some (e, t) ∧ Calm t := by
  obtain ⟨gap, t₀, lead, more⟩ := bind_eq_some_iff.mp run
  rw [Blank.across_eq_of_token_eq_none (Blank.token_eq_none (by decide) q)] at lead
  cases lead
  obtain ⟨t₁, same, more⟩ := exactly_bind_eq_some_iff.mp more
  obtain rfl := (List.cons.inj same).2
  obtain ⟨arguments, v, found, more⟩ := bind_eq_some_iff.mp more
  rw [items_eq] at found
  rcases orElse_eq_some_iff.mp found with first | ⟨-, nothing⟩
  · obtain ⟨e, t, item, others⟩ := bind_eq_some_iff.mp first
    obtain ⟨more', t', repeated, last⟩ := bind_eq_some_iff.mp others
    cases last
    refine ⟨e, t, item, ?_⟩
    cases many_iff_chain.mp repeated with
    | cons taken _ _ =>
      -- a comma and the next argument
      obtain ⟨t₂, rfl, -⟩ := exactly_bind_eq_some_iff.mp taken
      exact (firm_of_mark (by decide) t₂).calm
    | nil =>
      rw [List.isEmpty_cons, if_neg (by simp)] at more
      obtain ⟨ending, t₃, ends, last⟩ := bind_eq_some_iff.mp more
      rcases (ending_callEnd (n := 0)).kinds _ _ _ ends with same | rfl | rfl
      · obtain ⟨b, gap, -⟩ := closing_eq_some_iff.mp last
        rw [same, Blank.across_eq_of_token_eq_none (token_of_spaced item)] at gap
        cases gap
        exact (firm_of_mark (by decide) x.2).calm
      · exact (firm_of_mark (by decide) t₃).calm
      · have closes : Closes ('.' :: '.' :: '.' :: t₃) ['.', '.'] :=
          closes_of_marks (.inr (.inr (.inr rfl)))
        exact closes.left.calm
  · cases nothing
    obtain ⟨ending, t₃, ends, more⟩ := bind_eq_some_iff.mp more
    cases ends
    obtain ⟨b, gap, -⟩ := closing_eq_some_iff.mp more
    rw [Blank.skip_eq_of_across gap] at front
    obtain ⟨rfl, -⟩ := List.cons.inj front
    exact absurd start (by decide)

theorem group_eq_some_iff {cs r : Chars} {node : Node} :
    group nested cs = some (node, r) ↔ ∃ q inner, cs = '(' :: q ∧ node = .group inner ∧
      between Blank.across (nested true) Blank.across q = some (inner, ')' :: r) := by
  constructor
  · intro run
    obtain ⟨q, rfl, more⟩ := exactly_bind_eq_some_iff.mp run
    obtain ⟨inner, t, read, more⟩ := bind_eq_some_iff.mp more
    obtain ⟨u, rfl, last⟩ := exactly_bind_eq_some_iff.mp more
    cases last
    exact ⟨q, inner, rfl, rfl, read⟩
  · rintro ⟨q, inner, rfl, rfl, read⟩
    exact exactly_bind_eq_some_iff.mpr ⟨q, rfl, bind_eq_some_iff.mpr ⟨inner, _, read,
      exactly_bind_eq_some_iff.mpr ⟨r, rfl, rfl⟩⟩⟩

/-- What can be read as an argument and in parentheses is the same expression. -/
theorem spaced_eq_of_group {q t r : Chars} {e inner : Expr} (item : spaced nested q = some (e, t))
    (calm : Calm t) (read : between Blank.across (nested true) Blank.across q = some (inner, r)) :
    e = inner ∧ t = r := by
  obtain ⟨left, u, before, more⟩ := bind_eq_some_iff.mp item
  obtain ⟨node, v, expr, after⟩ := bind_eq_some_iff.mp more
  obtain ⟨right, w, behind, last⟩ := bind_eq_some_iff.mp after
  cases last
  have calm' : Calm (Blank.skip true v) := by rwa [Blank.skip_eq_of_across behind]
  rw [between, bind_of_eq_some before, bind_of_eq_some (nested_across expr calm'),
    bind_of_eq_some behind] at read
  cases read
  exact ⟨rfl, rfl⟩

section Productions

variable {n : Nat} (h : ∀ newlines, Replays n 0 True Node.gauge Follow (nested newlines))
include h

/-- Whether a value in parentheses is taken for arguments does not depend on what is behind it. -/
theorem callTail_settled {g z z' function : Chars} {base : Node}
    (run : group nested (g ++ z) = some (base, z)) (run' : group nested (g ++ z') = some (base, z'))
    (bound : g.length ≤ n + 1) (tight : weight g ≤ weight base.chars) (whole : base.Whole)
    (failed : callTail nested function (g ++ z) = none) :
    callTail nested function (g ++ z') = none := by
  obtain ⟨q, inner, split, rfl, read⟩ := group_eq_some_iff.mp run
  obtain ⟨q', inner', split', same, read'⟩ := group_eq_some_iff.mp run'
  cases same
  refine Option.eq_none_iff_forall_ne_some.mpr fun x taken => ?_
  -- the argument is what is in the parentheses, and would be an argument in the other text
  obtain ⟨left, u, before, more⟩ := bind_eq_some_iff.mp read'
  obtain ⟨node, v, expr, -⟩ := bind_eq_some_iff.mp more
  obtain ⟨c, u', start, rfl⟩ := leads_nested true _ _ expr
  rw [split'] at taken
  obtain ⟨e, t, item, calm⟩ := spaced_of_callTail taken (Blank.skip_eq_of_across before) start
  obtain ⟨rfl, rfl⟩ := spaced_eq_of_group item calm read'
  obtain ⟨i, rfl, replay⟩ := replays_spaced h _ _ _ item
  have whole_g : g = '(' :: (i ++ [')']) := by
    have same : g ++ z' = '(' :: (i ++ [')']) ++ z' := by simpa using split'
    exact List.append_cancel_right same
  subst whole_g
  obtain rfl : q = i ++ ')' :: z := by simpa using split.symm
  simp only [List.length_cons, List.length_append] at bound
  have marks : heft '(' = 1 ∧ heft ')' = 1 := by decide
  obtain ⟨-, again⟩ := replay (by omega)
  have item' := (again (by
    simpa [Node.chars, Expr.gauge, marks] using tight) whole).2 (')' :: z)
      (closes_of_mark (by decide) (by decide))
  exact callTail_of_single item' function (by simpa using failed)

/-- Whether an expression that begins with a value in parentheses is taken for arguments does not
depend on what is behind it. -/
theorem callTail_of_nested (keys : KeysSettle n) {v r r' t t' function : Chars} {node : Node}
    (run : nested false (v ++ r) = some (node, r)) (same : v ++ r = '(' :: t)
    (same' : v ++ r' = '(' :: t') (bound : v.length ≤ n + 1) (tight : weight v ≤ weight node.chars)
    (whole : node.Whole) (follow : Follow r r')
    (failed : callTail nested function (v ++ r) = none) :
    callTail nested function (v ++ r') = none := by
  obtain ⟨⟨base, grouped⟩, g, w, rfl, taken, taken', heavy, sound⟩ := term_again h keys run
    (by rw [same]; exact leads_unaryOp.eq_none (by decide)) bound tight whole follow
  rw [List.append_assoc] at same same' failed ⊢
  rw [same] at taken
  rw [same'] at taken'
  have read := group_of_term taken
  have read' := group_of_term taken'
  rw [← same] at read
  rw [← same'] at read'
  rw [List.length_append] at bound
  exact callTail_settled h read read' (by omega) heavy sound failed

/-- Whether an expression that begins with a list is taken for an index does not depend on what is
behind it. -/
theorem step_of_nested (keys : KeysSettle n) {newlines : Bool} {v r r' t t' : Chars} {node : Node}
    (run : nested false (v ++ r) = some (node, r)) (same : v ++ r = '[' :: t)
    (same' : v ++ r' = '[' :: t') (bound : v.length ≤ n + 1) (tight : weight v ≤ weight node.chars)
    (whole : node.Whole) (follow : Follow r r') (failed : step nested newlines (v ++ r) = none) :
    step nested newlines (v ++ r') = none := by
  obtain ⟨⟨base, grouped⟩, g, w, rfl, taken, taken', -, -⟩ := term_again h keys run
    (by rw [same]; exact leads_unaryOp.eq_none (by decide)) bound tight whole follow
  rw [List.append_assoc] at same same' failed ⊢
  rw [same] at taken failed
  rw [same'] at taken' ⊢
  exact step_settled (list_of_term taken) (list_of_term taken') failed

/-- Whether an expression is taken for a part of the value in front of it does not depend on what is
behind it. -/
theorem settled_of_nested (keys : KeysSettle n) {v r r' : Chars} {node : Node}
    (run : nested false (v ++ r) = some (node, r)) (run' : nested false (v ++ r') = some (node, r'))
    (bound : v.length ≤ n + 1) (tight : weight v ≤ weight node.chars) (whole : node.Whole)
    (follow : Follow r r') : Settled (v ++ r) (v ++ r') := by
  obtain ⟨c, u, begins, start⟩ := head_of_nested run
  have same : v ++ r = c :: (u ++ r) := by rw [begins, List.cons_append]
  have same' : v ++ r' = c :: (u ++ r') := by rw [begins, List.cons_append]
  have firm : ∀ newlines, Blank.skip newlines (c :: (u ++ r')) = c :: (u ++ r') :=
    fun newlines => Blank.skip_eq_of_hard (hard_of_isStart start)
  -- A value that begins with a parenthesis or a bracket could also be a call or a step of the value
  -- in front, and then what is inside decides. Nothing else that goes on begins like a value.
  refine ⟨fun function failed => ?call, fun newlines failed => ?step,
    fun newlines first _ => ?question, fun newlines first failed => ?operator⟩
  case call =>
    by_cases paren : c = '('
    · subst paren
      exact callTail_of_nested h keys run same same' bound tight whole follow failed
    · rw [same']
      refine callTail_eq_none fun first => ?_
      rw [firm] at first
      exact paren (Option.some.inj first)
  case step =>
    by_cases bracket : c = '['
    · subst bracket
      exact step_of_nested h keys run same same' bound tight whole follow failed
    · rw [same']
      refine step_eq_none (fun first => ?_) fun u inside => ?_
      · rw [firm] at first
        exact bracket (Option.some.inj first)
      · rw [firm] at inside
        obtain rfl := (List.cons.inj inside).1
        exact absurd start (by decide)
  case question =>
    rw [same']
    refine question_eq_none fun first => ?_
    rw [firm] at first
    obtain rfl := Option.some.inj first
    exact absurd start (by decide)
  case operator =>
    exact operator_settled run run' (by rw [same', same]; rfl) failed

/-- Keys settle whether the value in front of them goes on, if shorter ones do. -/
theorem keysSettle_succ (keys : KeysSettle n) : KeysSettle (n + 1) := by
  intro u r r' key run run' bound tight whole closes
  have more : ∀ newlines, Replays (n + 1) 0 True Node.gauge Follow (nested newlines) := by
    intro newlines
    rw [nested_eq]
    exact replays_expression h keys newlines
  have tight : 0 + weight u ≤ Expr.gauge.weight key := by simpa [Expr.gauge] using tight
  obtain ⟨b, b', v, rfl, gap, read, -, -, again⟩ := (Blank.replays_gap (n + 1) true).front
    (fun b => replays_betweenTail more false false (by simp [Gauge.text]) ⟨trivial, trivial⟩)
    (fun _ _ _ _ _ run run' _ => near_of_betweenTail run run') run bound tight whole
  obtain ⟨gap', read', -⟩ := again r' closes
  obtain rfl := List.append_cancel_right (Blank.gap_split gap)
  simp only [List.length_append, weight_append, Nat.zero_add] at bound tight
  -- the blank space behind the key
  obtain ⟨node, s, a, rfl, expr, -, heavy, sound, again⟩ := (more false).front
    (fun node => @replays_after _ (weight b' + weight node.chars) _ false b' node (Nat.le_refl _)
      fun whole => ⟨trivial, whole⟩)
    (fun _ _ _ _ _ run run' closes => follow_of_after run run' closes) read (by omega) tight whole
  obtain ⟨expr', -, follow⟩ := again r' closes
  rw [List.length_append] at bound
  have settled := settled_of_nested h keys expr expr' (by omega) heavy sound follow
  simp only [List.append_assoc] at gap gap' ⊢
  exact settled_of_across expr expr' gap gap' settled

end Productions

/-! ### Without bounds -/

/-- A key is not empty. -/
theorem keysSettle_zero : KeysSettle 0 := by
  intro u r r' key run _ short _ _ _
  obtain rfl := List.eq_nil_of_length_eq_zero (Nat.le_zero.mp short)
  have advances := shortens_across.bind_advances fun left =>
    (advances_nested false).bind fun node =>
    (shortens_gap false).bind fun right => shortens_pure (Expr.mk (.written left right) node)
  exact absurd (advances _ _ _ run) (Nat.lt_irrefl _)

/-- Expressions and keys of at most `n` characters are read again wherever they stand. -/
theorem replays_upTo (n : Nat) :
    (∀ newlines, Replays n 0 True Node.gauge Follow (nested newlines)) ∧ KeysSettle n := by
  induction n with
  | zero =>
    exact ⟨fun newlines => .zero (shortens_nested newlines) (advances_nested newlines),
      keysSettle_zero⟩
  | succ n ih =>
    obtain ⟨h, keys⟩ := ih
    refine ⟨fun newlines => ?_, keysSettle_succ h keys⟩
    rw [nested_eq]
    exact replays_expression h keys newlines

theorem replays_nested (n : Nat) (newlines : Bool) :
    Replays n 0 True Node.gauge Follow (nested newlines) :=
  (replays_upTo n).1 newlines

end TerraformPins.Hcl.Grammar
