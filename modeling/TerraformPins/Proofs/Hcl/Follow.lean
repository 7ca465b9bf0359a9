import TerraformPins.Proofs.Hcl.Nested

/-!
# What follows an expression

Behind its last part an expression looks for more: the arguments of a call, a step into the value,
an operator. It looks behind the blank space, and past the end of the line if that is allowed. It
ends if it finds none of these. Two rests end it alike if whatever is not found in one of them is
not found in the other.

## Main definitions

* `Grammar.isStart` — the characters that begin an expression
* `Grammar.Calm` — texts that do not go on with an expression
* `Grammar.Follow` — two rests behind an expression
* `Grammar.Closes` — two rests behind an expression and the blank space around it

## Main results

* `Grammar.leads_nested` — an expression begins with one of these characters
* `Grammar.follow_of_gap` — a mark behind blank space ends an expression
-/

namespace TerraformPins.Hcl.Grammar

open Scan

/-! ### How an expression begins -/

/-- The characters that begin an expression. -/
def isStart (c : Char) : Bool :=
  ['!', '-', '(', '"', '[', '{', '<'].contains c || c.isDigit || isWordStart c

theorem shortens_step (newlines : Bool) : (step nested newlines).Shortens :=
  (tracks_step (n := 0) (fun newlines => .refl (shortens_nested newlines)) newlines).shortens

/-- An operation leaves a part of the text. -/
theorem shortens_operation (newlines : Bool) (first : Node) :
    (operation nested newlines first).Shortens :=
  (tracks_operation (n := 0) (fun newlines => .refl (shortens_nested newlines))
    newlines first).shortens

/-- A term begins like an expression. -/
theorem leads_term (N : Nested) : Leads isStart (term N) := by
  have mono : ∀ {α : Type} {p : Scan α} {c : Char}, isStart c = true → Leads (· == c) p →
      Leads isStart p := by
    intro α p c ok leads
    refine leads.mono fun d same => ?_
    rwa [beq_iff_eq.mp same]
  refine Leads.orElse (mono (c := '(') (by decide) (leads_exactly _ _).bind).map (Leads.map ?_)
  refine (mono (c := '"') (by decide) (leads_exactly _ _).bind).orElse ?_
  refine (mono (c := '[') (by decide) (leads_exactly _ _).bind).orElse ?_
  refine (mono (c := '{') (by decide) (leads_exactly _ _).bind).orElse ?_
  refine Leads.orElse (Leads.map ?_) ?_
  · refine Leads.orElse (Number.leads_unsigned.mono fun c digit => ?_)
      (mono (c := '-') (by decide) Number.leads_signed)
    simp [isStart, digit]
  refine (mono (c := '<') (by decide) (leads_exactly _ _).bind).orElse ?_
  refine Leads.bind (leads_identifier.mono fun c start => ?_)
  simp [isStart, start]

/-- A sign is an exclamation mark or a minus sign. -/
theorem leads_unaryOp : Leads (fun c => c == '!' || c == '-') unaryOp := by
  intro cs x run
  obtain ⟨t, b, -, ⟨-, rfl⟩ | ⟨-, rfl, -⟩⟩ :=
    unaryOp_eq_some_iff.mp (show unaryOp cs = some (x.1, x.2) from run)
  · exact ⟨'!', t, rfl, rfl⟩
  · exact ⟨'-', t, rfl, rfl⟩

/-- Signs and a term begin with a sign or with the term. -/
theorem leads_expression (N : Nested) (newlines : Bool) :
    Leads isStart (expression N newlines) := by
  intro cs x run
  obtain ⟨ops, t, signs, run⟩ := bind_eq_some_iff.mp run
  obtain ⟨⟨base, grouped⟩, t', first, -⟩ := bind_eq_some_iff.mp run
  cases many_iff_chain.mp signs with
  | nil => exact leads_term N _ _ first
  | cons taken =>
    obtain ⟨c, u, ok, rfl⟩ := leads_unaryOp _ _ taken
    refine ⟨c, u, ?_, rfl⟩
    rcases Bool.or_eq_true_iff.mp ok with bang | minus
    · rw [beq_iff_eq.mp bang]
      decide
    · rw [beq_iff_eq.mp minus]
      decide

theorem leads_nested (newlines : Bool) : Leads isStart (nested newlines) := by
  rw [nested_eq]
  exact leads_expression nested newlines

/-- What begins an expression begins no blank space. -/
theorem hard_of_isStart {newlines : Bool} {c : Char} {t : Chars} (h : isStart c = true) :
    Blank.Hard newlines (c :: t) := by
  intro d first
  obtain rfl := Option.some.inj first
  simp only [Blank.soft, Blank.isSpace, Bool.or_eq_false_iff, Bool.and_eq_false_iff,
    beq_eq_false_iff_ne, ne_eq]
  refine ⟨⟨⟨?_, ?_⟩, ?_⟩, .inr ⟨⟨?_, ?_⟩, ?_⟩⟩ <;> rintro rfl <;> revert h <;> decide

/-- An expression ends the blank space in front of it. -/
theorem hard_of_nested {newlines nl : Bool} {t : Chars} {x : Node × Chars}
    (run : nested nl t = some x) : Blank.Hard newlines t := by
  obtain ⟨c, u, start, rfl⟩ := leads_nested nl _ _ run
  exact hard_of_isStart start

/-- Two expressions end the blank space in front of them. -/
theorem near_of_nested {newlines nl nl' : Bool} {t t' : Chars} {x x' : Node × Chars}
    (run : nested nl t = some x) (run' : nested nl' t' = some x') : Near newlines t t' := by
  obtain ⟨c, u, start, rfl⟩ := leads_nested nl _ _ run
  exact .inr ⟨hard_of_isStart start, nofun, hard_of_nested run'⟩

/-! ### How an expression goes on -/

/-- A conditional behind its condition. -/
def question (N : Nested) (newlines : Bool) (first : Node) : Scan Node := do
  let gap ← Blank.gap newlines
  let _ ← exactly ['?']
  let yes ← between (Blank.gap newlines) (N newlines) (Blank.gap newlines)
  let _ ← exactly [':']
  let no ← between (Blank.gap newlines) (N newlines) (pure [])
  pure (.conditional (.mk (.written [] gap) first) yes no)

/-- A binary operator and its second operand. -/
def operator (N : Nested) (newlines : Bool) (first : Node) : Scan Node := do
  let gap ← Blank.gap newlines
  let op ← binaryOp
  let right ← between (Blank.gap newlines) (N newlines) (pure [])
  pure (.binary (.mk (.written [] gap) first) op right)

/-- A value goes on with a conditional, with an operator or not at all. -/
theorem operation_eq (N : Nested) (newlines : Bool) (first : Node) :
    operation N newlines first =
      (question N newlines first <|> operator N newlines first <|> pure first) := rfl

/-- A text that does not go on with an expression. -/
structure Calm (t : Chars) : Prop where
  noCall : t.head? ≠ some '('
  noIndex : t.head? ≠ some '['
  noQuestion : t.head? ≠ some '?'
  noOperator : binaryOp t = none
  noDot : ∀ u, t = '.' :: u → u.head? = some '.'

theorem exactly_bind_eq_none {β : Type} {c : Char} {lead t : Chars} {f : Chars → Scan β}
    (h : t.head? ≠ some c) : (exactly (c :: lead) >>= f) t = none := by
  refine (leads_exactly c lead).bind.eq_none_of_head fun d first => ?_
  rw [beq_eq_false_iff_ne]
  rintro rfl
  exact h first

/-- There is no call where no parenthesis is next. -/
theorem callTail_eq_none {N : Nested} {function cs : Chars}
    (h : (Blank.skip true cs).head? ≠ some '(') : callTail N function cs = none := by
  obtain ⟨b, run⟩ := Blank.exists_gap true cs
  have run : Blank.across cs = some (b, Blank.skip true cs) := run
  rw [callTail, bind_of_eq_some run]
  exact exactly_bind_eq_none h

/-- There is no step where no bracket is next, and no dot but one of several. -/
theorem step_eq_none {N : Nested} {newlines : Bool} {cs : Chars}
    (noIndex : (Blank.skip newlines cs).head? ≠ some '[')
    (noDot : ∀ u, Blank.skip newlines cs = '.' :: u → u.head? = some '.') :
    step N newlines cs = none := by
  obtain ⟨b, run⟩ := Blank.exists_gap newlines cs
  rw [step, bind_of_eq_some run]
  generalize Blank.skip newlines cs = t at noIndex noDot
  rw [orElse_of_eq_none, orElse_of_eq_none (exactly_bind_eq_none noIndex)]
  · exact exactly_bind_eq_none noIndex
  · by_cases dot : t.head? = some '.'
    · -- a second dot is no target of a step
      obtain ⟨u, rfl⟩ := List.head?_eq_some_iff.mp dot
      obtain ⟨v, rfl⟩ := List.head?_eq_some_iff.mp (noDot u rfl)
      have taken : exactly ['.'] ('.' :: '.' :: v) = some (['.'], '.' :: v) :=
        exactly_append ['.'] ('.' :: v)
      have blank : Blank.across ('.' :: v) = some ([], '.' :: v) :=
        Blank.across_eq_of_token_eq_none (Blank.token_eq_none (by decide) v)
      rw [bind_of_eq_some taken, bind_of_eq_some blank]
      refine bind_of_eq_none ?_
      rw [orElse_of_eq_none (leads_identifier.eq_none (by decide)), orElse_of_eq_none,
        exactly_cons_eq_none (by decide)]
      exact (leads_run1 Char.isDigit).bind.eq_none (by decide)
    · exact exactly_bind_eq_none dot

theorem question_eq_none {N : Nested} {newlines : Bool} {first : Node} {cs : Chars}
    (h : (Blank.skip newlines cs).head? ≠ some '?') : question N newlines first cs = none := by
  obtain ⟨b, run⟩ := Blank.exists_gap newlines cs
  rw [question, bind_of_eq_some run]
  exact exactly_bind_eq_none h

/-- There is no operation where no operator is next. -/
theorem operator_eq_none {N : Nested} {newlines : Bool} {first : Node} {cs : Chars}
    (h : binaryOp (Blank.skip newlines cs) = none) : operator N newlines first cs = none := by
  obtain ⟨b, run⟩ := Blank.exists_gap newlines cs
  rw [operator, bind_of_eq_some run, bind_of_eq_none h]

/-- The end of a line is calm. -/
theorem calm_of_token {t : Chars} (inline : Blank.token false t = none)
    (across : Blank.token true t ≠ none) : Calm t := by
  have starts : (∃ u, t = '\n' :: u) ∨ (∃ u, t = '\r' :: '\n' :: u) ∨ (∃ u, t = '#' :: u) ∨
      ∃ u, t = '/' :: '/' :: u := by
    obtain ⟨⟨a, r⟩, taken⟩ := Option.ne_none_iff_exists'.mp across
    rcases Blank.lineEnd_or_lineComment inline taken with ended | commented
    · obtain ⟨rfl | rfl, rfl⟩ := Blank.lineEnd_eq_some_iff.mp ended
      · exact .inl ⟨r, rfl⟩
      · exact .inr (.inl ⟨r, rfl⟩)
    · obtain ⟨lead, b, -, rfl, rfl | rfl, -⟩ := Blank.lineComment_eq_some_iff.mp commented
      · exact .inr (.inr (.inl ⟨b ++ r, by simp⟩))
      · exact .inr (.inr (.inr ⟨b ++ r, by simp⟩))
  rcases starts with ⟨u, rfl⟩ | ⟨u, rfl⟩ | ⟨u, rfl⟩ | ⟨u, rfl⟩ <;>
    exact ⟨by simp, by simp, by simp, rfl, by simp⟩

/-- A text that does not go on over lines does not go on along its line. -/
theorem Calm.skip {cs : Chars} (h : Calm (Blank.skip true cs)) (newlines : Bool) :
    Calm (Blank.skip newlines cs) := by
  cases newlines with
  | true => exact h
  | false =>
    by_cases ends : Blank.token true (Blank.skip false cs) = none
    · have stays := Blank.skip_eq_of_gap (Blank.gap_eq_of_token_eq_none ends)
      rwa [← stays, Blank.skip_skip]
    · exact calm_of_token (Blank.token_skip false cs) ends

/-! ### Two rests -/

/-- What is not found in one rest is not found in the other. -/
structure Settled (r r' : Chars) : Prop where
  call : ∀ function, callTail nested function r = none → callTail nested function r' = none
  step : ∀ newlines, step nested newlines r = none → step nested newlines r' = none
  question : ∀ newlines first, question nested newlines first r = none →
    question nested newlines first r' = none
  operator : ∀ newlines first, operator nested newlines first r = none →
    operator nested newlines first r' = none

/-- Two rests are settled if the second one does not go on at all. -/
theorem settled_of_calm {r r' : Chars} (h : Calm (Blank.skip true r')) : Settled r r' where
  call _ _ := callTail_eq_none h.noCall
  step newlines _ := step_eq_none (h.skip newlines).noIndex (h.skip newlines).noDot
  question newlines _ _ := question_eq_none (h.skip newlines).noQuestion
  operator newlines _ _ := operator_eq_none (h.skip newlines).noOperator

/-- Nothing is found behind blank space if nothing is found without it. -/
theorem callTail_skip {N : Nested} {function t : Chars} :
    callTail N function (Blank.skip true t) = none ↔ callTail N function t = none := by
  obtain ⟨b, run⟩ := Blank.exists_gap true t
  have stays := Blank.gap_eq_of_token_eq_none (Blank.token_skip true t)
  have run : Blank.across t = some (b, Blank.skip true t) := run
  have stays : Blank.across (Blank.skip true t) = some ([], Blank.skip true t) := stays
  rw [callTail, bind_of_eq_some run, bind_of_eq_some stays]
  simp only [bind_eq_none_iff, ifThenElse_eq_none_iff, pure_apply, reduceCtorEq]

theorem step_skip {N : Nested} {newlines : Bool} {t : Chars} :
    Grammar.step N newlines (Blank.skip newlines t) = none ↔ Grammar.step N newlines t = none := by
  obtain ⟨b, run⟩ := Blank.exists_gap newlines t
  have stays := Blank.gap_eq_of_token_eq_none (Blank.token_skip newlines t)
  rw [Grammar.step, bind_of_eq_some run, bind_of_eq_some stays]
  simp only [orElse_eq_none_iff, bind_eq_none_iff, pure_apply, reduceCtorEq]

/-- Whether a conditional goes on depends on what is behind the blank space. -/
theorem question_skip {N : Nested} {newlines : Bool} {first : Node} {t : Chars} :
    Grammar.question N newlines first (Blank.skip newlines t) = none ↔
      Grammar.question N newlines first t = none := by
  obtain ⟨b, run⟩ := Blank.exists_gap newlines t
  have stays := Blank.gap_eq_of_token_eq_none (Blank.token_skip newlines t)
  rw [Grammar.question, bind_of_eq_some run, bind_of_eq_some stays]
  simp only [bind_eq_none_iff, pure_apply, reduceCtorEq]

theorem operator_skip {N : Nested} {newlines : Bool} {first : Node} {t : Chars} :
    Grammar.operator N newlines first (Blank.skip newlines t) = none ↔
      Grammar.operator N newlines first t = none := by
  obtain ⟨b, run⟩ := Blank.exists_gap newlines t
  have stays := Blank.gap_eq_of_token_eq_none (Blank.token_skip newlines t)
  rw [Grammar.operator, bind_of_eq_some run, bind_of_eq_some stays]
  simp only [bind_eq_none_iff, pure_apply, reduceCtorEq]

/-- Two rests with a line end in front of them. -/
theorem Settled.of_line {t t' r r' : Chars} (h : Settled r r')
    (skips : Blank.skip true t = Blank.skip true r)
    (skips' : Blank.skip true t' = Blank.skip true r')
    (line : Blank.token true (Blank.skip false t') ≠ none) : Settled t t' where
  call function failed := by
    rw [← callTail_skip, skips', callTail_skip]
    refine h.call function ?_
    rwa [← callTail_skip, ← skips, callTail_skip]
  step newlines failed := by
    cases newlines with
    | true =>
      rw [← step_skip, skips', step_skip]
      refine h.step true ?_
      rwa [← step_skip, ← skips, step_skip]
    | false =>
      have calm := calm_of_token (Blank.token_skip false t') line
      exact step_eq_none calm.noIndex calm.noDot
  question newlines first failed := by
    cases newlines with
    | true =>
      rw [← question_skip, skips', question_skip]
      refine h.question true first ?_
      rwa [← question_skip, ← skips, question_skip]
    | false => exact question_eq_none (calm_of_token (Blank.token_skip false t') line).noQuestion
  operator newlines first failed := by
    cases newlines with
    | true =>
      rw [← operator_skip, skips', operator_skip]
      refine h.operator true first ?_
      rwa [← operator_skip, ← skips, operator_skip]
    | false => exact operator_eq_none (calm_of_token (Blank.token_skip false t') line).noOperator

/-- Two rests behind an expression. -/
structure Follow (r r' : Chars) : Prop where
  alike : Alike r r'
  settled : Settled r r'

/-- A text that ends an expression and the blank space behind it. -/
structure Firm (t : Chars) : Prop where
  hard : Blank.Hard true t
  nonempty : t ≠ []
  calm : Calm t

/-- Two rests behind an expression and the blank space around it. -/
structure Closes (r r' : Chars) : Prop where
  alike : Alike r r'
  left : Firm r
  right : Firm r'

/-- Two rests that close something are near each other. -/
theorem Closes.near {r r' : Chars} (h : Closes r r') (newlines : Bool) : Near newlines r r' := by
  have hard : ∀ t, Blank.Hard true t → Blank.Hard newlines t := by
    intro t hard c first
    have := hard c first
    cases newlines with
    | true => exact this
    | false =>
      simp only [Blank.soft, Bool.true_and, Bool.false_and, Bool.or_false,
        Bool.or_eq_false_iff] at this ⊢
      exact this.1
  exact .inr ⟨hard r h.left.hard, fun _ => h.left.nonempty, hard r' h.right.hard⟩

/-- What can begin blank space belongs neither to a word nor to a number. -/
theorem endsWord_of_soft {newlines : Bool} {c : Char} (h : Blank.soft newlines c = true) :
    isWordPart c = false ∧ c ≠ '.' := by
  simp only [Blank.soft, Blank.isSpace, Bool.or_eq_true, Bool.and_eq_true, beq_iff_eq] at h
  rcases h with ((rfl | rfl) | rfl) | ⟨-, (rfl | rfl) | rfl⟩ <;> decide

/-- A text begins with blank space or with what is behind it. -/
theorem head_of_gap {newlines : Bool} {c d : Char} {cs b t : Chars}
    (run : Blank.gap newlines cs = some (b, c :: t)) (first : cs.head? = some d) :
    d = c ∨ Blank.soft newlines d = true := by
  obtain rfl := Blank.gap_split run
  cases b with
  | nil => exact .inl (Option.some.inj first).symm
  | cons e b =>
    obtain rfl := Option.some.inj first
    exact .inr (Blank.soft_of_gap run)

theorem head_of_across {c d : Char} {cs b t : Chars} (run : Blank.across cs = some (b, c :: t))
    (first : cs.head? = some d) : d = c ∨ Blank.soft true d = true :=
  head_of_gap run first

/-- The first character of blank space belongs to no word. -/
theorem alike_of_gap {newlines : Bool} {t t' b r r' : Chars}
    (run : Blank.gap newlines t = some (b, r)) (run' : Blank.gap newlines t' = some (b, r'))
    (alike : Alike r r') : Alike t t' := by
  obtain rfl := Blank.gap_split run
  obtain rfl := Blank.gap_split run'
  cases b with
  | nil => exact alike
  | cons c b =>
    refine .inr fun d first => ?_
    obtain rfl := Option.some.inj first
    exact endsWord_of_soft (Blank.soft_of_gap run)

theorem alike_of_across {t t' b r r' : Chars} (run : Blank.across t = some (b, r))
    (run' : Blank.across t' = some (b, r')) (alike : Alike r r') : Alike t t' :=
  @alike_of_gap true t t' b r r' run run' alike

/-- A mark behind blank space ends an expression. -/
theorem follow_of_gap {newlines : Bool} {t t' b r r' : Chars}
    (run : Blank.gap newlines t = some (b, r)) (run' : Blank.gap newlines t' = some (b, r'))
    (closes : Closes r r') : Follow t t' := by
  refine ⟨alike_of_gap run run' closes.alike, settled_of_calm ?_⟩
  have behind : Blank.skip true t' = r' := by
    have stays := Blank.skip_eq_of_hard closes.right.hard
    cases newlines with
    | true => exact Blank.skip_eq_of_gap run'
    | false => rw [← Blank.skip_skip, Blank.skip_eq_of_gap run', stays]
  rw [behind]
  exact closes.right.calm

end TerraformPins.Hcl.Grammar
