import TerraformPins.Proofs.Hcl.Term

/-!
# Replaying signs, steps and operators

What stands in front of a term and behind it: the signs, the steps into a value, and an operator
with its other operands. None of them can be taken for a part of the term, since their first
character is not one that a word goes on with, or the second one is still theirs.

## Main definitions

* `Grammar.SignsEnd`, `Grammar.StepsEnd` — two rests behind signs and behind steps

## Main results

* `Grammar.replays_signs`, `Grammar.replays_steps`, `Grammar.replays_operation`
-/

namespace TerraformPins.Hcl.Grammar

open Scan

/-! ### Signs -/

/-- Two rests behind signs: neither begins with a number that was taken for something else. -/
structure SignEnd (r r' : Chars) : Prop where
  near : Near false r r'
  number : Number.unsigned r = none → Number.unsigned r' = none

/-- Behind a minus sign and blank space there is a number exactly if there is one without a sign. -/
theorem signed_eq_none_iff {t b r : Chars} (gap : Blank.inline t = some (b, r)) :
    Number.signed ('-' :: t) = none ↔ Number.unsigned r = none := by
  have taken : exactly ['-'] ('-' :: t) = some (['-'], t) := exactly_append ['-'] t
  rw [Number.signed, bind_of_eq_some taken, bind_of_eq_some gap]
  simp only [bind_eq_none_iff, pure_apply, reduceCtorEq]
  exact ⟨fun h => Option.eq_none_iff_forall_ne_some.mpr fun x run => h x.1 x.2 run,
    fun h a t run => by rw [h] at run; cases run⟩

/-- A sign is read again where no number follows a minus sign, or one follows in both rests. -/
theorem replays_unaryOp (n : Nat) :
    Replays n 0 True ⟨fun op => weight op.chars, fun _ => True⟩ SignEnd unaryOp := by
  have marks : heft '!' = 1 ∧ heft '-' = 1 := by decide
  intro cs op rest run
  obtain ⟨t, b, gap, which⟩ := unaryOp_eq_some_iff.mp run
  have split := Blank.inline_split gap
  have again : ∀ rest', Near false rest rest' → Blank.inline (b ++ rest') = some (b, rest') :=
    fun rest' near => Blank.inline_again gap near
  rcases which with ⟨rfl, rfl⟩ | ⟨rfl, rfl, none⟩
  · refine ⟨'!' :: b, by rw [split]; rfl, fun _ => ⟨?_, fun _ _ => ⟨trivial, fun rest' ends => ?_⟩⟩⟩
    · simp only [UnaryOp.chars, weight_cons, weight_nil, marks]
      omega
    · exact unaryOp_eq_some_iff.mpr ⟨b ++ rest', b, again rest' ends.near, .inl ⟨rfl, rfl⟩⟩
  · refine ⟨'-' :: b, by rw [split]; rfl, fun _ => ⟨?_, fun _ _ => ⟨trivial, fun rest' ends => ?_⟩⟩⟩
    · simp only [UnaryOp.chars, weight_cons, weight_nil, marks]
      omega
    · have gap' := again rest' ends.near
      refine unaryOp_eq_some_iff.mpr ⟨b ++ rest', b, gap', .inr ⟨rfl, rfl, ?_⟩⟩
      rw [List.cons_append, signed_eq_none_iff gap']
      exact ends.number ((signed_eq_none_iff gap).mp none)

/-- Where there is no sign, there are no signs. -/
theorem many_unaryOp_nil {t : Chars} (none : unaryOp t = none) :
    Scan.many unaryOp t = some ([], t) :=
  many_eq_some_of_chain (.nil fun a r taken => by rw [none] at taken; cases taken)

theorem advances_unaryOp : unaryOp.Advances := by
  intro cs op rest run
  obtain ⟨t, b, gap, which⟩ := unaryOp_eq_some_iff.mp run
  obtain ⟨w, split⟩ := shortens_inline _ _ _ gap
  have shorter := congrArg List.length split
  rw [List.length_append] at shorter
  rcases which with ⟨-, rfl⟩ | ⟨-, rfl, -⟩ <;> rw [List.length_cons] <;> omega

/-- Two rests behind all signs. -/
structure SignsEnd (r r' : Chars) : Prop where
  sign : SignEnd r r'
  stops : unaryOp r = none → unaryOp r' = none

/-- All signs in front of a value are read again. -/
theorem replays_signs (n : Nat) :
    Replays n 0 True (Gauge.list ⟨fun op => weight op.chars, fun _ => True⟩)
    SignsEnd (Scan.many unaryOp) := by
  refine (replays_unaryOp n).many advances_unaryOp (fun op w rest rest' run run' _ _ _ _ => ?_)
    fun _ _ ends => ⟨ends.sign, ends.stops⟩
  obtain ⟨c, u, ok, same⟩ := leads_unaryOp _ _ run
  obtain ⟨c', u', ok', same'⟩ := leads_unaryOp _ _ run'
  have start : ∀ c, (c == '!' || c == '-') = true → isStart c = true ∧ c.isDigit = false := by
    intro c ok
    simp only [Bool.or_eq_true, beq_iff_eq] at ok
    rcases ok with rfl | rfl <;> decide
  rw [same, same']
  exact ⟨near_of_start (start c ok).1 (start c' ok').1,
    fun _ => Number.leads_unsigned.eq_none (start c' ok').2⟩

/-- A term ends the signs in front of it. -/
theorem signsEnd_of_term {c : Char} {w w' : Chars} {x x' : (Node × Bool) × Chars}
    (run : term nested (c :: w) = some x) (run' : term nested (c :: w') = some x') :
    SignsEnd (c :: w) (c :: w') := by
  obtain ⟨d, u, start, same⟩ := leads_term nested _ _ run
  obtain ⟨rfl, rfl⟩ := List.cons.inj same
  refine ⟨⟨near_of_start start start, fun none => ?_⟩, fun _ => unaryOp_eq_none_of_term run'⟩
  cases digit : c.isDigit with
  | true => exact absurd none (unsigned_of_term run digit)
  | false => exact Number.leads_unsigned.eq_none digit

/-! ### Steps -/

/-- A dot and what is behind it. -/
def dotStep (before : Chars) : Scan Step := do
  let _ ← exactly ['.']
  let gap ← Blank.across
  let target ← identifier <|> dotIndex <|> exactly ['*']
  pure (.dot before gap target)

/-- A star in brackets. -/
def starStep (before : Chars) : Scan Step := do
  let _ ← exactly ['[']
  let left ← Blank.across
  let _ ← exactly ['*']
  let right ← Blank.across
  let _ ← exactly [']']
  pure (.star before left right)

/-- An index in brackets. -/
def indexStep (before : Chars) : Scan Step := do
  let _ ← exactly ['[']
  let value ← spaced nested
  let _ ← exactly [']']
  pure (.index before value)

/-- A step from a value is blank space, and behind it a step with a dot, with a star in brackets or
with an index. -/
theorem step_eq (newlines : Bool) : step nested newlines = (do
    let before ← Blank.gap newlines
    dotStep before <|> starStep before <|> indexStep before) := rfl

theorem leads_dotStep (before : Chars) : Leads (· == '.') (dotStep before) :=
  (leads_exactly '.' []).bind

/-- A step in brackets begins with a bracket. -/
theorem leads_bracketStep (before : Chars) :
    Leads (· == '[') (starStep before <|> indexStep before) :=
  (leads_exactly '[' []).bind.orElse (leads_exactly '[' []).bind

/-- A step begins with a dot or a bracket. -/
theorem leads_stepTail (before : Chars) : Leads (fun c => c == '.' || c == '[')
    (dotStep before <|> starStep before <|> indexStep before) :=
  (leads_dotStep before).either (leads_bracketStep before)

theorem leads_dotIndex : Leads Char.isDigit dotIndex :=
  (leads_run1 Char.isDigit).bind

theorem replays_dotIndex (n : Nat) : Replays n 0 True Gauge.text Alike dotIndex := by
  refine Replays.bind (Replays.run1 n Char.isDigit) (fun digits => Replays.guard_bind
    (Replays.pure ?_ fun _ _ => ⟨trivial, trivial⟩)) fun digits a w rest rest' run _ alike => ?_
  · simp [Gauge.text]
  · obtain ⟨_, t, guarded, last⟩ := bind_eq_some_iff.mp run
    rw [guard_apply] at guarded
    split at guarded
    case isTrue =>
      cases guarded
      obtain rfl : w = [] := by simpa using congrArg (fun x => x.map Prod.snd) last
      exact alike.head isDigit_eq_false_of_word
    case isFalse => cases guarded

/-- What a step with a dot goes to is read again in front of a rest that begins alike. -/
theorem replays_target (n : Nat) : Replays n 0 True Gauge.text Alike
    (identifier <|> dotIndex <|> exactly ['*']) := by
  have star : Replays n 0 True Gauge.text Alike (exactly ['*']) := by
    intro cs a rest run
    obtain ⟨rfl, rfl⟩ := exactly_eq_some_iff.mp run
    refine ⟨['*'], rfl, fun _ => ⟨by simp [Gauge.text], fun _ _ => ⟨trivial, fun rest' _ => ?_⟩⟩⟩
    exact exactly_append _ _
  have second := (replays_dotIndex n).orElse_of_leads star leads_dotIndex (leads_exactly '*' [])
    fun c same => by rw [beq_iff_eq.mp same]; decide
  refine (replays_identifier n).orElse_of_leads second leads_identifier
    (leads_dotIndex.either (leads_exactly '*' [])) fun c ok => ?_
  rw [Bool.eq_false_iff]
  intro word
  rcases Bool.or_eq_true_iff.mp ok with digit | same
  · rw [isDigit_of_isWordStart word] at digit
    cases digit
  · rw [beq_iff_eq.mp same] at word
    revert word
    decide

theorem advances_target : (identifier <|> dotIndex <|> exactly ['*']).Advances := by
  have digits : (run1 Char.isDigit).Advances := (advances_one _).bind fun _ =>
    (shortens_run _).bind fun _ => shortens_pure _
  have index : dotIndex.Advances := digits.bind fun _ => (shortens_guard _).bind fun _ =>
    shortens_pure _
  exact advances_identifier.orElse (index.orElse (advances_exactly '*' []))

theorem twice_dotStep (before : Chars) : (dotStep before).AdvancesTwice :=
  (advances_exactly '.' []).bind_advances fun _ => shortens_across.bind_advances fun _ =>
    advances_target.bind fun _ => shortens_pure _

theorem twice_starStep (before : Chars) : (starStep before).AdvancesTwice :=
  (advances_exactly '[' []).bind_advances fun _ => shortens_across.bind_advances fun _ =>
    (advances_exactly '*' []).bind fun _ => shortens_across.bind fun _ =>
      (shortens_exactly _).bind fun _ => shortens_pure _

theorem twice_indexStep (before : Chars) : (indexStep before).AdvancesTwice :=
  (advances_exactly '[' []).bind_advances fun _ => shortens_spaced.bind_advances fun _ =>
    (advances_exactly ']' []).bind fun _ => shortens_pure _

/-- A step takes two characters at least, a mark and what it goes to. -/
theorem twice_step (newlines : Bool) : (step nested newlines).AdvancesTwice :=
  (shortens_gap newlines).bind_twice fun before =>
    (twice_dotStep before).orElse ((twice_starStep before).orElse (twice_indexStep before))

/-- A target ends the blank space in front of it. -/
theorem near_of_target {t t' : Chars} {x x' : Chars × Chars}
    (run : (identifier <|> dotIndex <|> exactly ['*']) t = some x)
    (run' : (identifier <|> dotIndex <|> exactly ['*']) t' = some x') : Near true t t' := by
  have leads := leads_identifier.either (leads_dotIndex.either (leads_exactly '*' []))
  have firm : ∀ c, (isWordStart c || (c.isDigit || c == '*')) = true →
      Blank.soft true c = false := by
    intro c ok
    by_cases star : c = '*'
    · subst star
      decide
    · have start : isStart c = true := by
        simp only [Bool.or_eq_true, beq_iff_eq, star, or_false] at ok
        rcases ok with word | digit
        · simp [isStart, word]
        · simp [isStart, digit]
      exact hard_of_isStart (t := []) start c rfl
  obtain ⟨c, u, ok, rfl⟩ := leads _ _ run
  obtain ⟨c', u', ok', rfl⟩ := leads _ _ run'
  exact near_of_hard (firm c ok) (firm c' ok')

section Productions

variable {n : Nat} (h : ∀ newlines, Replays n 0 True Node.gauge Follow (nested newlines))

theorem replays_dotStep {credit : Nat} {claim : Prop} {before : Chars}
    (paid : weight before ≤ credit) (holds : claim) :
    Replays n credit claim Step.gauge Alike (dotStep before) := by
  have marks : heft '.' = 1 := by decide
  refine Replays.lead_bind (Replays.bind (Blank.replays_gap n true) (fun gap => ?_)
    fun gap x w rest rest' run run' _ => ?_)
  · refine (replays_target n).bind_pure (fun target => ?_) fun target _ _ =>
      ⟨⟨holds, trivial⟩, trivial⟩
    simp only [Step.gauge, Step.chars, Gauge.text, weight_cons, weight_append, weight_nil, marks]
    omega
  · obtain ⟨target, t, first, -⟩ := bind_eq_some_iff.mp run
    obtain ⟨target', t', first', -⟩ := bind_eq_some_iff.mp run'
    exact near_of_target first first'

/-- A step with a star in brackets is read again whatever is behind it. -/
theorem replays_starStep {credit : Nat} {claim : Prop} {before : Chars}
    (paid : weight before ≤ credit) (holds : claim) :
    Replays n credit claim Step.gauge (fun _ _ => True) (starStep before) := by
  have marks : heft '[' = 1 ∧ heft '*' = 1 ∧ heft ']' = 1 := by decide
  refine Replays.lead_bind (Replays.bind (Blank.replays_gap n true) (fun left =>
    Replays.lead_bind (Replays.bind (Blank.replays_gap n true) (fun right =>
      Replays.lead_bind (Replays.pure ?_ ?_)) ?_)) ?_)
  · simp only [Step.gauge, Step.chars, Gauge.text, weight_cons, weight_append, weight_nil, marks]
    omega
  · exact fun _ _ => ⟨⟨holds, trivial⟩, trivial⟩
  · intro right x w rest rest' run run' _
    obtain ⟨t, same, -⟩ := exactly_bind_eq_some_iff.mp run
    obtain ⟨t', same', -⟩ := exactly_bind_eq_some_iff.mp run'
    rw [same, same']
    exact near_of_hard (by decide) (by decide)
  · intro left x w rest rest' run run' _
    obtain ⟨t, same, -⟩ := exactly_bind_eq_some_iff.mp run
    obtain ⟨t', same', -⟩ := exactly_bind_eq_some_iff.mp run'
    rw [same, same']
    exact near_of_hard (by decide) (by decide)

include h

/-- An index is read again whatever is behind it, since it ends with a bracket. -/
theorem replays_indexStep {credit : Nat} {claim : Prop} {before : Chars}
    (paid : weight before ≤ credit) (holds : claim) :
    Replays (n + 1) credit claim Step.gauge (fun _ _ => True) (indexStep before) := by
  have marks : heft '[' = 1 ∧ heft ']' = 1 := by decide
  refine Replays.exactly_bind (Replays.bind (replays_spaced h) (fun value => Replays.lead_bind
    (Replays.pure ?_ fun _ whole => ⟨holds, whole⟩)) fun value x w rest rest' run run' _ => ?_)
  · simp only [Step.gauge, Step.chars, Expr.gauge, weight_cons, weight_append, weight_nil, marks]
    omega
  · obtain ⟨t, same, -⟩ := exactly_bind_eq_some_iff.mp run
    obtain ⟨t', same', -⟩ := exactly_bind_eq_some_iff.mp run'
    rw [same, same']
    exact closes_of_mark (by decide) (by decide)

/-- A step is read again, whichever of the three it is. -/
theorem replays_step (newlines : Bool) :
    Replays (n + 1) 0 True Step.gauge Alike (step nested newlines) := by
  rw [step_eq]
  refine Replays.bind (Blank.replays_gap (n + 1) newlines) (fun before => ?_)
    fun before x w rest rest' run run' _ => ?_
  · have paid : weight before ≤ 0 + Gauge.text.weight before := by simp [Gauge.text]
    have holds : True ∧ Gauge.text.sound before := ⟨trivial, trivial⟩
    -- a star is no index
    have bracket := (replays_starStep paid holds).orElse (replays_indexStep h paid holds)
      fun x w rest rest' _ _ run' _ => by
        obtain ⟨t, same, more⟩ := exactly_bind_eq_some_iff.mp run'
        obtain ⟨value, u, item, -⟩ := bind_eq_some_iff.mp more
        obtain ⟨b, v, gap, inner⟩ := bind_eq_some_iff.mp item
        obtain ⟨node, y, read, -⟩ := bind_eq_some_iff.mp inner
        obtain ⟨c, z, start, rfl⟩ := leads_nested false _ _ read
        have taken : exactly ['['] ('[' :: t) = some (['['], t) := exactly_append ['['] t
        rw [same]
        show starStep before ('[' :: t) = none
        rw [starStep, bind_of_eq_some taken, bind_of_eq_some gap]
        refine exactly_bind_eq_none fun star => ?_
        obtain rfl := Option.some.inj star
        exact absurd start (by decide)
    refine (replays_dotStep paid holds).orElse_of_leads
      (bracket.mono (fun _ _ _ => trivial) (Nat.le_refl _)) (leads_dotStep before)
      (leads_bracketStep before) fun c same => ?_
    rw [beq_iff_eq.mp same]
    decide
  · have firm : ∀ c, (c == '.' || c == '[') = true → Blank.soft newlines c = false := by
      intro c ok
      simp only [Bool.or_eq_true, beq_iff_eq] at ok
      rcases ok with rfl | rfl <;> cases newlines <;> rfl
    obtain ⟨c, u, ok, same⟩ := leads_stepTail before _ _ run
    obtain ⟨c', u', ok', same'⟩ := leads_stepTail before _ _ run'
    rw [same, same']
    exact near_of_hard (firm c ok) (firm c' ok')

end Productions

/-- Two rests behind the steps into a value. -/
structure StepsEnd (newlines : Bool) (r r' : Chars) : Prop where
  alike : Alike r r'
  stops : step nested newlines r = none → step nested newlines r' = none

/-- Texts that begin with the same two characters do not go on with a word, unless with an
exponent. -/
theorem alike_of_twice {w r r' : Chars} (long : 2 ≤ w.length) (noExponent : w.head? ≠ some 'e')
    (noExponentToo : w.head? ≠ some 'E') : Alike (w ++ r) (w ++ r') := by
  cases w with
  | nil => cases long
  | cons a w =>
    cases w with
    | nil => exact absurd long (by simp)
    | cons b w =>
      exact .inl ⟨a, b, _, _, rfl, rfl, by simpa using noExponent, by simpa using noExponentToo⟩

/-- A step begins with blank space, a dot or a bracket. -/
theorem head_of_step {newlines : Bool} {t : Chars} {x : Step × Chars} {c : Char}
    (run : step nested newlines t = some x) (first : t.head? = some c) :
    Blank.soft newlines c = true ∨ c = '.' ∨ c = '[' := by
  rw [step_eq] at run
  obtain ⟨b, u, gap, more⟩ := bind_eq_some_iff.mp run
  obtain ⟨d, v, ok, rfl⟩ := leads_stepTail b _ _ more
  rcases head_of_gap gap first with rfl | soft
  · simp only [Bool.or_eq_true, beq_iff_eq] at ok
    exact .inr ok
  · exact .inl soft

/-- A reader that leaves at least `k` characters less takes `k` characters. -/
theorem length_of_takes {w rest : Chars} {k : Nat} (h : rest.length + k ≤ (w ++ rest).length) :
    k ≤ w.length := by
  rw [List.length_append] at h
  omega

/-- In front of a step the rests begin alike, because a step takes two characters. -/
theorem alike_of_step {newlines : Bool} {w rest rest' : Chars} {a : Step}
    (run : step nested newlines (w ++ rest) = some (a, rest)) : Alike (w ++ rest) (w ++ rest') := by
  have long := length_of_takes (twice_step newlines _ _ _ run)
  have other : ∀ c, w.head? = some c → Blank.soft newlines c = true ∨ c = '.' ∨ c = '[' := by
    intro c first
    refine head_of_step run ?_
    rw [List.head?_append, first]
    rfl
  refine alike_of_twice long (fun first => ?_) fun first => ?_ <;>
    rcases other _ first with soft | same | same <;>
      first | cases same | cases newlines <;> cases soft

/-- All steps from a value are read again. -/
theorem replays_steps {n : Nat}
    (h : ∀ newlines, Replays n 0 True Node.gauge Follow (nested newlines)) (newlines : Bool) :
    Replays (n + 1) 0 True (Gauge.list Step.gauge) (StepsEnd newlines)
      (Scan.many (step nested newlines)) :=
  (replays_step h newlines).many (twice_step newlines).advances
    (fun _ _ _ _ run _ _ _ _ _ => alike_of_step run) fun _ _ ends => ⟨ends.alike, ends.stops⟩

/-! ### Operators -/

/-- A binary operator is read again in front of the same character. -/
theorem replays_binaryOp (n : Nat) : Replays n 0 True ⟨fun op => weight op.chars, fun _ => True⟩
    (fun r r' => r.head? = r'.head?) binaryOp := by
  intro cs op rest run
  refine ⟨op.chars, binaryOp_split run, fun _ =>
    ⟨by simp, fun _ _ => ⟨trivial, fun rest' same => ?_⟩⟩⟩
  obtain rfl := binaryOp_split run
  cases rest with
  | nil =>
    cases rest' with
    | nil => exact run
    | cons c t => cases same
  | cons c t =>
    cases rest' with
    | nil => cases same
    | cons c' t' =>
      obtain rfl := Option.some.inj same
      -- only these three look at the next character
      cases op <;>
        simp only [BinaryOp.chars, List.cons_append, List.nil_append] at run ⊢ <;> try rfl
      case below | above =>
        by_cases equal : c = '='
        · subst equal
          cases run
        · unfold binaryOp
          split <;> simp_all
      case divide =>
        by_cases slash : c = '/'
        · subst slash
          cases run
        · simp [binaryOp, slash]

theorem shortens_signs : (Scan.many unaryOp).Shortens :=
  shortens_unaryOp.many

theorem shortens_steps (newlines : Bool) : (Scan.many (step nested newlines)).Shortens :=
  (shortens_step newlines).many

theorem advances_nested (newlines : Bool) : (nested newlines).Advances := by
  rw [nested_eq]
  exact shortens_signs.bind_advances fun _ => advances_term.bind fun x =>
    (shortens_steps (newlines || x.2)).bind fun _ => shortens_operation _ _

/-- The text of an expression does not begin behind it. -/
theorem head_of_nested {newlines : Bool} {v r : Chars} {node : Node}
    (run : nested newlines (v ++ r) = some (node, r)) : ∃ c u, v = c :: u ∧ isStart c = true := by
  obtain ⟨c, u, start, same⟩ := leads_nested newlines _ _ run
  have shorter := advances_nested newlines _ _ _ run
  cases v with
  | nil => exact absurd shorter (Nat.lt_irrefl _)
  | cons d v =>
    obtain ⟨rfl, -⟩ := List.cons.inj same
    exact ⟨d, v, rfl, start⟩

/-- An operand begins with blank space or an expression. -/
theorem head_of_operand {newlines : Bool} {t : Chars} {x : Expr × Chars} {c : Char}
    (run : between (Blank.gap newlines) (nested newlines) (pure []) t = some x)
    (first : t.head? = some c) : Blank.soft newlines c = true ∨ isStart c = true := by
  obtain ⟨b, u, gap, more⟩ := bind_eq_some_iff.mp run
  obtain ⟨node, v, read, -⟩ := bind_eq_some_iff.mp more
  obtain ⟨d, w, start, rfl⟩ := leads_nested newlines _ _ read
  rcases head_of_gap gap first with rfl | soft
  · exact .inr start
  · exact .inl soft

theorem shortens_operand (newlines : Bool) :
    (between (Blank.gap newlines) (nested newlines) (pure [])).Shortens :=
  (shortens_gap newlines).bind fun _ => (shortens_nested newlines).bind fun _ =>
    (shortens_pure _).bind fun _ => shortens_pure _

theorem advances_operand (newlines : Bool) :
    (between (Blank.gap newlines) (nested newlines) (pure [])).Advances :=
  (shortens_gap newlines).bind_advances fun _ => (advances_nested newlines).bind fun _ =>
    (shortens_pure _).bind fun _ => shortens_pure _

/-- The branches of a conditional. -/
def questionTail (newlines : Bool) (first : Node) (gap : Chars) : Scan Node := do
  let _ ← exactly ['?']
  let yes ← between (Blank.gap newlines) (nested newlines) (Blank.gap newlines)
  let _ ← exactly [':']
  let no ← between (Blank.gap newlines) (nested newlines) (pure [])
  pure (.conditional (.mk (.written [] gap) first) yes no)

/-- A conditional is blank space and what is behind it. -/
theorem question_eq (newlines : Bool) (first : Node) : question nested newlines first =
    Blank.gap newlines >>= questionTail newlines first := rfl

/-- A conditional takes its two marks, and more than that. -/
theorem twice_questionTail (newlines : Bool) (first : Node) (gap : Chars) :
    (questionTail newlines first gap).AdvancesTwice := by
  have yes : (between (Blank.gap newlines) (nested newlines) (Blank.gap newlines)).Shortens :=
    (shortens_gap newlines).bind fun _ => (shortens_nested newlines).bind fun _ =>
      (shortens_gap newlines).bind fun _ => shortens_pure _
  exact (advances_exactly '?' []).bind_advances fun _ => yes.bind_advances fun _ =>
    (advances_exactly ':' []).bind fun _ => (shortens_operand newlines).bind fun _ =>
      shortens_pure _

/-- An operator and its second operand. -/
def operatorTail (newlines : Bool) (first : Node) (gap : Chars) : Scan Node := do
  let op ← binaryOp
  let right ← between (Blank.gap newlines) (nested newlines) (pure [])
  pure (.binary (.mk (.written [] gap) first) op right)

/-- An operation is blank space and what is behind it. -/
theorem operator_eq (newlines : Bool) (first : Node) : operator nested newlines first =
    Blank.gap newlines >>= operatorTail newlines first := rfl

theorem twice_operatorTail (newlines : Bool) (first : Node) (gap : Chars) :
    (operatorTail newlines first gap).AdvancesTwice :=
  advances_binaryOp.bind_advances fun _ => (advances_operand newlines).bind fun _ => shortens_pure _

/-- An operator is no blank space; a slash in front of an operand does not begin a comment. -/
theorem operatorTail_head {newlines : Bool} {first : Node} {gap t : Chars} {x : Node × Chars}
    (run : operatorTail newlines first gap t = some x) :
    ∃ c u, t = c :: u ∧ isOperator c = true ∧
      (c = '/' → u.head? ≠ some '*' ∧ u.head? ≠ some '/') := by
  obtain ⟨op, u, taken, more⟩ := bind_eq_some_iff.mp run
  obtain ⟨right, v, operand, -⟩ := bind_eq_some_iff.mp more
  obtain ⟨c, t, ok, rfl⟩ := leads_binaryOp _ _ taken
  refine ⟨c, t, rfl, ok, ?_⟩
  rintro rfl
  have single : t.head? ≠ some '/' ∧ t = u := by
    simp only [binaryOp] at taken
    split at taken
    case isTrue => cases taken
    case isFalse other =>
      cases taken
      exact ⟨other, rfl⟩
  obtain ⟨other, rfl⟩ := single
  refine ⟨fun star => ?_, other⟩
  rcases head_of_operand operand star with soft | start
  · cases newlines <;> cases soft
  · exact absurd start (by decide)

/-- The rests behind the blank space in front of an operator are near each other. -/
theorem near_of_operatorTail {newlines : Bool} {first : Node} {gap w rest rest' : Chars}
    {node : Node} (run : operatorTail newlines first gap (w ++ rest) = some (node, rest)) :
    Near newlines (w ++ rest) (w ++ rest') := by
  have long := length_of_takes (twice_operatorTail newlines first gap _ _ _ run)
  obtain ⟨c, u, same, ok, slash⟩ := operatorTail_head run
  cases w with
  | nil => cases long
  | cons a w =>
    cases w with
    | nil => exact absurd long (by simp)
    | cons b w =>
      obtain ⟨rfl, rfl⟩ := List.cons.inj same
      refine .inl ⟨a, b, _, _, rfl, rfl, fun comment => ?_⟩
      exact (slash comment.1).1 (congrArg some comment.2)

section Productions

variable {n : Nat} (h : ∀ newlines, Replays n 0 True Node.gauge Follow (nested newlines))
include h

/-- An operation is read again, if its operands are. -/
theorem replays_operator {credit : Nat} {claim : Prop} (newlines : Bool) {first : Node}
    (paid : weight first.chars ≤ credit) (holds : first.Whole → claim) :
    Replays (n + 1) credit claim Node.gauge Follow (operator nested newlines first) := by
  rw [operator_eq]
  refine Replays.bind (Blank.replays_gap (n + 1) newlines) (fun gap => ?_)
    fun gap node w rest rest' run _ _ => near_of_operatorTail run
  refine Replays.bind_next (replays_binaryOp (n + 1)) advances_binaryOp (fun op => ?_)
    fun op node w rest rest' run _ _ => ?_
  · refine (replays_operand h newlines).bind_pure (fun right => ?_)
      fun right _ whole => ⟨⟨⟨holds whole.1, trivial⟩, trivial⟩, whole.2⟩
    simp only [Node.gauge, Node.chars, Expr.gauge, Expr.chars, Layout.around, Layout.written,
      Gauge.text, weight_append, weight_nil, Option.getD_some]
    omega
  · -- the operand takes something
    obtain ⟨right, t, operand, last⟩ := bind_eq_some_iff.mp run
    cases last
    have shorter := advances_operand newlines _ _ _ operand
    cases w with
    | nil => exact absurd shorter (Nat.lt_irrefl _)
    | cons c w => rfl

theorem replays_question {credit : Nat} {claim : Prop} (newlines : Bool) {first : Node}
    (paid : weight first.chars ≤ credit) (holds : first.Whole → claim) :
    Replays (n + 1) credit claim Node.gauge Follow (question nested newlines first) := by
  have marks : heft '?' = 1 ∧ heft ':' = 1 := by decide
  refine Replays.bind (Blank.replays_gap (n + 1) newlines) (fun gap => Replays.exactly_bind ?_)
    fun gap node w rest rest' run run' _ => ?_
  · refine Replays.bind (replays_between h newlines newlines newlines)
      (fun yes => Replays.lead_bind ?_) fun yes node w rest rest' run run' _ => ?_
    · refine (replays_operand h newlines).bind_pure (fun no => ?_)
        fun no _ whole => ⟨⟨⟨holds whole.1, trivial⟩, whole.2.1⟩, whole.2.2⟩
      simp only [Node.gauge, Node.chars, Expr.gauge, Expr.chars, Layout.around, Layout.written,
        Gauge.text, weight_append, weight_cons, weight_nil, Option.getD_some, marks]
      omega
    · obtain ⟨t, same, -⟩ := exactly_bind_eq_some_iff.mp run
      obtain ⟨t', same', -⟩ := exactly_bind_eq_some_iff.mp run'
      rw [same, same']
      exact closes_of_mark (by decide) (by decide)
  · obtain ⟨t, same, -⟩ := exactly_bind_eq_some_iff.mp run
    obtain ⟨t', same', -⟩ := exactly_bind_eq_some_iff.mp run'
    have firm : Blank.soft newlines '?' = false := by cases newlines <;> rfl
    rw [same, same']
    exact near_of_hard firm firm

/-- What follows the first operand. -/
theorem replays_operation {credit : Nat} {claim : Prop} (newlines : Bool) {first : Node}
    (paid : weight first.chars ≤ credit) (holds : first.Whole → claim) :
    Replays (n + 1) credit claim Node.gauge Follow (operation nested newlines first) := by
  have nothing : Replays (n + 1) credit claim Node.gauge Follow (pure first) :=
    Replays.pure paid fun _ whole => holds whole
  rw [operation_eq]
  have later := (replays_operator h newlines paid holds).orElse nothing
    fun a w rest rest' failed run _ follow => by
      obtain rfl : w = [] := by simpa using congrArg (fun x => x.map Prod.snd) run
      exact follow.settled.operator newlines first failed
  refine (replays_question h newlines paid holds).orElse later
    fun a w rest rest' failed _ run' follow => ?_
  rcases orElse_eq_some_iff.mp run' with operated | ⟨-, plain⟩
  · rw [operator_eq] at operated
    obtain ⟨b, u, gap, more⟩ := bind_eq_some_iff.mp operated
    obtain ⟨c, v, rfl, ok, -⟩ := operatorTail_head more
    refine question_eq_none fun mark => ?_
    rw [Blank.skip_eq_of_gap gap] at mark
    obtain rfl := Option.some.inj mark
    exact absurd ok (by decide)
  · obtain rfl : w = [] := by simpa using congrArg (fun x => x.map Prod.snd) plain
    exact follow.settled.question newlines first failed

end Productions

end TerraformPins.Hcl.Grammar
