import TerraformPins.Hcl.Grammar
import TerraformPins.Proofs.Hcl.Quoted
import TerraformPins.Proofs.Hcl.Word
import TerraformPins.Proofs.Scan.Track

/-!
# Nested expressions

The bound on the nesting depth of expressions does not matter if it is not less than the length of
the text, and the same holds for the directives of a template. Without the bounds the productions
are equations for two readers.

## Main definitions

* `Grammar.nested` — the reader of expressions without a bound

## Main results

* `Grammar.nested_eq`, `Grammar.parts_eq` — the productions of the two readers
-/

namespace TerraformPins.Hcl.Grammar

open Scan

/-! ### Readers without nested expressions -/

/-- What blank space leaves is a part of the text. -/
theorem shortens_across : Blank.across.Shortens :=
  (Blank.replays_gap 0 true).shortens

theorem shortens_inline : Blank.inline.Shortens :=
  (Blank.replays_gap 0 false).shortens

theorem shortens_gap (newlines : Bool) : (Blank.gap newlines).Shortens :=
  (Blank.replays_gap 0 newlines).shortens

/-- A name begins with a letter or an underscore. -/
theorem leads_identifier : Leads isWordStart identifier :=
  (leads_one isWordStart).bind

/-- A name takes at least one character. -/
theorem advances_identifier : identifier.Advances :=
  (advances_one isWordStart).bind fun _ => (shortens_run isWordPart).bind fun _ => shortens_pure _

theorem shortens_identifier : identifier.Shortens :=
  (replays_identifier 0).shortens

theorem shortens_spacedWord : spacedWord.Shortens :=
  shortens_across.bind fun _ => shortens_identifier.bind fun _ =>
    shortens_across.bind fun _ => shortens_pure _

theorem shortens_stripMark : stripMark.Shortens :=
  (shortens_exactly _).optional.map

theorem shortens_marker (word : Chars) : (marker word).Shortens :=
  (shortens_exactly _).bind fun _ => shortens_stripMark.bind fun _ => shortens_across.bind fun _ =>
    (shortens_exactly _).bind fun _ => shortens_across.bind fun _ =>
      shortens_stripMark.bind fun _ =>
      (shortens_exactly _).bind fun _ => shortens_pure _

theorem shortens_lineEnd : Blank.lineEnd.Shortens :=
  (shortens_exactly _).orElse (shortens_exactly _)

theorem shortens_lineComment : Blank.lineComment.Shortens :=
  ((shortens_exactly _).orElse (shortens_exactly _)).bind fun _ =>
    (shortens_run _).bind fun _ => shortens_pure _

theorem shortens_guard (b : Bool) : (guard (b = true) : Scan Unit).Shortens := by
  intro cs a rest run
  rw [guard_apply] at run
  split at run
  case isTrue => exact ⟨[], by cases run; rfl⟩
  case isFalse => cases run

theorem shortens_sees (lead : List Char) : (sees lead).Shortens := by
  intro cs a rest run
  cases run
  exact ⟨[], rfl⟩

/-- The end of an entry leaves a part of the text, whichever of the four ends it is. -/
theorem shortens_entryStop : entryStop.Shortens :=
  ((shortens_exactly _).bind fun _ => shortens_pure _).orElse <|
    (shortens_lineEnd.bind fun _ => shortens_pure _).orElse <|
      (shortens_lineComment.bind fun _ => shortens_lineEnd.bind fun _ => shortens_pure _).orElse <|
        ((shortens_sees _).bind fun _ => shortens_guard _).bind fun _ => shortens_pure _

theorem shortens_sign : sign.Shortens :=
  ((shortens_exactly _).bind fun _ => shortens_pure _).orElse
    ((shortens_exactly _).bind fun _ => shortens_pure _)

theorem shortens_callEnd : callEnd.Shortens :=
  ((shortens_exactly _).bind fun _ => shortens_pure _).orElse <|
    ((shortens_exactly _).bind fun _ => shortens_pure _).orElse (shortens_pure _)

theorem shortens_dotIndex : dotIndex.Shortens :=
  (shortens_run1 _).bind fun _ => (shortens_guard _).bind fun _ => shortens_pure _

/-- A sign in front of a term, and what has to stand behind it. -/
theorem unaryOp_eq_some_iff {cs rest : List Char} {op : UnaryOp} :
    unaryOp cs = some (op, rest) ↔
      ∃ t b, Blank.inline t = some (b, rest) ∧
        ((op = .complement ∧ cs = '!' :: t) ∨
          (op = .negate ∧ cs = '-' :: t ∧ Number.signed cs = none)) := by
  -- A minus in front of digits belongs to the number, so it is no operator there.
  have negation : ∀ cs, ((fun cs => if (Number.signed cs).isSome then none else some ((), cs)) *>
      (do
        let _ ← exactly ['-']
        let _ ← Blank.inline
        pure UnaryOp.negate) : Scan UnaryOp) cs =
      if (Number.signed cs).isSome then none
      else (exactly ['-'] >>= fun _ => Blank.inline >>= fun _ => pure UnaryOp.negate) cs := by
    intro cs
    show Option.bind (if (Number.signed cs).isSome then none else some ((), cs)) _ = _
    split <;> rfl
  rw [unaryOp, orElse_eq_some_iff, negation]
  constructor
  · rintro (first | ⟨-, second⟩)
    · obtain ⟨lead, t, taken, first⟩ := bind_eq_some_iff.mp first
      obtain ⟨-, rfl⟩ := exactly_eq_some_iff.mp taken
      have first : (Blank.inline >>= fun _ => pure UnaryOp.complement) t = some (op, rest) := first
      obtain ⟨b, t', gap, last⟩ := bind_eq_some_iff.mp first
      cases last
      exact ⟨t, b, gap, .inl ⟨rfl, rfl⟩⟩
    · split at second
      case isTrue => cases second
      case isFalse failed =>
        obtain ⟨lead, t, taken, second⟩ := bind_eq_some_iff.mp second
        obtain ⟨-, rfl⟩ := exactly_eq_some_iff.mp taken
        have second : (Blank.inline >>= fun _ => pure UnaryOp.negate) t = some (op, rest) := second
        obtain ⟨b, t', gap, last⟩ := bind_eq_some_iff.mp second
        cases last
        exact ⟨t, b, gap, .inr ⟨rfl, rfl, by simpa using failed⟩⟩
  · rintro ⟨t, b, gap, ⟨rfl, rfl⟩ | ⟨rfl, rfl, failed⟩⟩
    · have taken : exactly ['!'] ('!' :: t) = some (['!'], t) := exactly_append ['!'] t
      left
      rw [bind_of_eq_some taken, bind_of_eq_some gap, pure_apply]
    · have taken : exactly ['-'] ('-' :: t) = some (['-'], t) := exactly_append ['-'] t
      have other : exactly ['!'] ('-' :: t) = none := exactly_cons_eq_none (by decide)
      right
      rw [failed, bind_of_eq_some taken, bind_of_eq_some gap, bind_of_eq_none other]
      exact ⟨rfl, rfl⟩

theorem shortens_unaryOp : unaryOp.Shortens := by
  intro cs op rest run
  obtain ⟨t, b, gap, kind⟩ := unaryOp_eq_some_iff.mp run
  obtain ⟨w, rfl⟩ := shortens_inline _ _ _ gap
  rcases kind with ⟨-, rfl⟩ | ⟨-, rfl, -⟩
  · exact ⟨'!' :: w, rfl⟩
  · exact ⟨'-' :: w, rfl⟩

/-- An operator is taken as it is written. -/
theorem binaryOp_split {cs rest : List Char} {op : BinaryOp} (run : binaryOp cs = some (op, rest)) :
    cs = op.chars ++ rest := by
  revert run
  fun_cases binaryOp cs
  all_goals
    intro run
    first
      | (cases run; rfl)
      | cases run

/-- A binary operator takes no character that it does not write. -/
theorem shortens_binaryOp : binaryOp.Shortens :=
  fun _ _ _ run => ⟨_, binaryOp_split run⟩

/-- The characters that can begin an operator between two expressions. -/
def isOperator (c : Char) : Bool :=
  ['=', '!', '<', '>', '+', '-', '*', '/', '%', '&', '|'].contains c

/-- A binary operator begins with one of the characters of operators. -/
theorem leads_binaryOp : Leads isOperator binaryOp := by
  intro cs x run
  rw [binaryOp_split (show binaryOp cs = some (x.1, x.2) from run)]
  cases x.1 <;> exact ⟨_, _, by decide, rfl⟩

/-- A binary operator takes at least one character. -/
theorem advances_binaryOp : binaryOp.Advances := by
  intro cs op rest run
  rw [binaryOp_split run, List.length_append]
  have : 0 < op.chars.length := by cases op <;> decide
  omega

/-! ### Productions -/

section Productions

variable {n : Nat} {N M : Nested} (h : ∀ newlines, Tracks n (N newlines) (M newlines))
include h

/-- An expression between blank space depends on its reader for nested expressions up to the length
of the text. -/
theorem tracks_spaced : Tracks n (spaced N) (spaced M) :=
  (Tracks.refl shortens_across).bind fun _ => (h false).bind fun _ =>
    (Tracks.refl shortens_across).bind fun _ => .pure _

theorem tracks_loopHead : Tracks n (loopHead N) (loopHead M) :=
  (Tracks.refl shortens_across).bind fun _ => (Tracks.exactly _).bind fun _ =>
    (Tracks.refl shortens_spacedWord).bind fun _ =>
      (Tracks.refl ((shortens_exactly _).bind fun _ => shortens_spacedWord).optional).bind fun _ =>
        (Tracks.exactly _).bind fun _ => (tracks_spaced h).bind fun _ => .pure _

theorem tracks_loopCondition : Tracks n (loopCondition N) (loopCondition M) :=
  (Tracks.exactly _).bind fun _ => tracks_spaced h

/-- An interpolation takes its marker first, so the expressions in it are shorter than the text by
one character at least. -/
theorem tracks_interpolation : Tracks (n + 1) (interpolation N) (interpolation M) :=
  .exactly_bind <| (Tracks.refl shortens_stripMark).bind fun _ => (tracks_spaced h).bind fun _ =>
    (Tracks.refl shortens_stripMark).bind fun _ => (Tracks.exactly _).bind fun _ => .pure _

/-- The condition of a template may be one character longer than what is known of its expressions
and its parts. -/
theorem tracks_branch {P Q : Scan (List Part)} (inner : Tracks n P Q) :
    Tracks (n + 1) (branch N P) (branch M Q) := by
  refine .exactly_bind <| (Tracks.refl shortens_stripMark).bind fun _ =>
    (Tracks.refl shortens_across).bind fun _ => (tracks_loopCondition h).bind fun _ =>
      (Tracks.refl shortens_stripMark).bind fun _ => (Tracks.exactly _).bind fun _ =>
        inner.bind fun _ => (Tracks.refl (shortens_marker _).optional).bind fun otherwise => ?_
  dsimp only
  split
  · exact inner.bind fun _ => (Tracks.refl (shortens_marker _)).bind fun _ => .pure _
  · exact (Tracks.pure _).bind fun _ => (Tracks.refl (shortens_marker _)).bind fun _ => .pure _

theorem tracks_loop {P Q : Scan (List Part)} (inner : Tracks n P Q) :
    Tracks (n + 1) (loop N P) (loop M Q) :=
  .exactly_bind <| (Tracks.refl shortens_stripMark).bind fun _ => (tracks_loopHead h).bind fun _ =>
    (Tracks.refl shortens_stripMark).bind fun _ => (Tracks.exactly _).bind fun _ =>
      inner.bind fun _ => (Tracks.refl (shortens_marker _)).bind fun _ => .pure _

/-- The alternatives of a template, with the given reader for what is nested in a directive. -/
theorem tracks_alternatives {P Q : Scan (List Part)} {literal : Scan Chars}
    (shortens : literal.Shortens) (inner : Tracks n P Q) :
    Tracks (n + 1)
      (Scan.many (Part.literal <$> literal <|> interpolation N <|> branch N P <|> loop N P))
      (Scan.many (Part.literal <$> literal <|> interpolation M <|> branch M Q <|> loop M Q)) :=
  Tracks.many <| (Tracks.refl shortens).map.orElse <| (tracks_interpolation h).orElse <|
    (tracks_branch h inner).orElse (tracks_loop h inner)

/-- The parts of a template to a given depth, by induction on the depth. -/
theorem tracks_partsUpTo {literal : Scan Chars} (shortens : literal.Shortens) (depth : Nat) :
    Tracks (n + 1) (partsUpTo N literal depth) (partsUpTo M literal depth) := by
  induction depth with
  | zero => exact .pure _
  | succ depth ih => exact tracks_alternatives h shortens (ih.mono (Nat.le_succ n))

/-- The parts of a template are read to the depth of the length of the text, which the texts
share. -/
theorem tracks_parts {literal : Scan Chars} (shortens : literal.Shortens) :
    Tracks (n + 1) (parts N literal) (parts M literal) := by
  refine ⟨fun cs a rest run => ?_, fun cs short => ?_⟩
  · exact (tracks_partsUpTo h shortens _).shortens cs a rest run
  · exact (tracks_partsUpTo h shortens _).agrees cs short

theorem tracks_quoted : Tracks (n + 1) (quoted N) (quoted M) := by
  refine .exactly_bind <|
    ((tracks_parts h (Quoted.replays_part 0).shortens).mono (Nat.le_succ n)).bind
    fun found => (Tracks.exactly _).bind fun _ => ?_
  split <;> exact .pure _

/-- The items of a list have no mark in front, so nothing is gained. -/
theorem tracks_items : Tracks n (items N) (items M) := by
  refine (tracks_spaced h).optional.bind fun first => ?_
  cases first with
  | none => exact .pure _
  | some first =>
    exact (Tracks.many ((Tracks.exactly _).bind fun _ => tracks_spaced h)).bind fun _ => .pure _

theorem tracks_listTail : Tracks n (listTail N) (listTail M) := by
  refine (tracks_items h).bind fun found => ?_
  have closing : ∀ comma : Option Chars, Shortens (do
      let closing ← Blank.across
      let _ ← exactly [']']
      pure (Node.list found comma.isSome closing)) :=
    fun comma => shortens_across.bind fun _ => (shortens_exactly _).bind fun _ => shortens_pure _
  dsimp only
  split
  · exact .refl ((shortens_pure _).bind closing)
  · exact .refl ((shortens_exactly _).optional.bind closing)

theorem tracks_listForTail : Tracks n (listForTail N) (listForTail M) :=
  (tracks_loopHead h).bind fun _ => (Tracks.exactly _).bind fun _ => (tracks_spaced h).bind fun _ =>
    (tracks_loopCondition h).optional.bind fun _ => (Tracks.exactly _).bind fun _ => .pure _

omit h in
theorem shortens_seesLoop : seesLoop.Shortens := by
  intro cs a rest run
  cases run
  exact ⟨[], rfl⟩

/-- A list takes its bracket first, whether it is a loop or has items. -/
theorem tracks_list : Tracks (n + 1) (list N) (list M) := by
  refine .exactly_bind <| (Tracks.refl shortens_seesLoop).bind fun found => ?_
  split
  · exact tracks_listForTail h
  · exact tracks_listTail h

theorem tracks_entry : Tracks n (entry N) (entry M) :=
  Tracks.bind ((Tracks.refl shortens_across).bind fun _ => (h false).bind fun _ =>
      (Tracks.refl shortens_inline).bind fun _ => .pure _) fun _ =>
    (Tracks.refl shortens_sign).bind fun _ => (Tracks.refl shortens_inline).bind fun _ =>
      (h false).bind fun _ => (Tracks.refl shortens_inline).bind fun _ =>
        (Tracks.refl shortens_entryStop).bind fun _ => .pure _

theorem tracks_objectTail : Tracks n (objectTail N) (objectTail M) :=
  (tracks_entry h).many.bind fun _ => (Tracks.refl shortens_across).bind fun _ =>
    (Tracks.exactly _).bind fun _ => .pure _

theorem tracks_objectForTail : Tracks n (objectForTail N) (objectForTail M) :=
  (tracks_loopHead h).bind fun _ => (Tracks.exactly _).bind fun _ => (tracks_spaced h).bind fun _ =>
    (Tracks.exactly _).bind fun _ => (tracks_spaced h).bind fun _ =>
      (Tracks.refl ((shortens_exactly _).bind fun _ => shortens_across).optional).bind fun _ =>
        (tracks_loopCondition h).optional.bind fun _ => (Tracks.exactly _).bind fun _ => .pure _

/-- An object takes its brace first, whether it is a loop or has entries. -/
theorem tracks_object : Tracks (n + 1) (object N) (object M) := by
  refine .exactly_bind <| (Tracks.refl shortens_seesLoop).bind fun found => ?_
  split
  · exact tracks_objectForTail h
  · exact tracks_objectTail h

theorem tracks_callTail (function : Chars) :
    Tracks (n + 1) (callTail N function) (callTail M function) := by
  refine (Tracks.refl shortens_across).bind fun gap => .exactly_bind <| (tracks_items h).bind
    fun found => ?_
  have closing : ∀ ending : CallEnd, Shortens (do
      let closing ← Blank.across
      let _ ← exactly [')']
      pure (Node.call function gap found ending closing)) :=
    fun ending => shortens_across.bind fun _ => (shortens_exactly _).bind fun _ => shortens_pure _
  dsimp only
  split
  · exact .refl ((shortens_pure _).bind closing)
  · exact .refl (shortens_callEnd.bind closing)

theorem tracks_nameOrCall : Tracks (n + 1) (nameOrCall N) (nameOrCall M) :=
  (Tracks.refl shortens_identifier).bind fun _ => (tracks_callTail h _).orElse (.pure _)

theorem tracks_group : Tracks (n + 1) (group N) (group M) :=
  .exactly_bind <| Tracks.bind ((Tracks.refl shortens_across).bind fun _ => (h true).bind fun _ =>
    (Tracks.refl shortens_across).bind fun _ => .pure _) fun _ =>
      (Tracks.exactly _).bind fun _ => .pure _

omit h in
/-- A heredoc is read from its parts; without a line end behind them it starts again without. -/
theorem heredocLines_apply (N : Nested) (word cs : Chars) :
    heredocLines N word cs =
      (parts N (heredocLiteral word) cs).bind fun x =>
        (Blank.lineEnd x.2).elim
          (if ['$', '{'].isPrefixOf x.2 then none
            else some (([], cs.takeWhile Blank.isSpace), cs.dropWhile Blank.isSpace))
          fun y => some ((withLineEnd y.1 x.1, y.2.takeWhile Blank.isSpace),
            y.2.dropWhile Blank.isSpace) := by
  have start : (get : Scan Chars) cs = some (cs, cs) := rfl
  unfold heredocLines
  rw [bind_of_eq_some start, bind_apply]
  congr 1
  funext x
  cases ended : Blank.lineEnd x.2 with
  | some y =>
    rw [bind_of_eq_some (optional_of_eq_some ended)]
    rfl
  | none =>
    rw [bind_of_eq_some (optional_of_eq_none ended), Option.elim_none]
    have looked : sees ['$', '{'] x.2 = some (['$', '{'].isPrefixOf x.2, x.2) := rfl
    show (sees ['$', '{'] >>= _) x.2 = _
    rw [bind_of_eq_some looked, bind_apply, guard_apply]
    cases ['$', '{'].isPrefixOf x.2 <;> rfl

omit h in
/-- The text in a heredoc is cut in front of its end word or of a template. -/
theorem heredocText_split (word cs : Chars) :
    (heredocText word cs).1 ++ (heredocText word cs).2 = cs := by
  fun_induction heredocText word cs <;> simp_all

omit h in
/-- A literal in a heredoc is the text up to the cut, if there is any. -/
theorem heredocLiteral_eq_some_iff {word cs a rest : Chars} :
    heredocLiteral word cs = some (a, rest) ↔ heredocText word cs = (a, rest) ∧ a ≠ [] := by
  rw [heredocLiteral]
  split
  case h_1 same => simp_all
  case h_2 nonempty same =>
    rw [same]
    simp only [Option.some.injEq, Prod.mk.injEq]
    exact ⟨fun both => ⟨both, both.1 ▸ nonempty⟩, And.left⟩

omit h in
theorem shortens_heredocLiteral (word : Chars) : (heredocLiteral word).Shortens := by
  intro cs a rest run
  obtain ⟨same, -⟩ := heredocLiteral_eq_some_iff.mp run
  have split := heredocText_split word cs
  rw [same] at split
  exact ⟨a, split.symm⟩

theorem tracks_heredocLines (word : Chars) :
    Tracks n (heredocLines N word) (heredocLines M word) := by
  have found := tracks_parts h (shortens_heredocLiteral word)
  refine ⟨fun cs a rest run => ?_, fun cs short => ?_⟩
  · rw [heredocLines_apply] at run
    obtain ⟨⟨ps, t⟩, taken, more⟩ := Option.bind_eq_some_iff.mp run
    obtain ⟨w, rfl⟩ := found.shortens cs ps t taken
    cases ended : Blank.lineEnd t with
    | some y =>
      obtain ⟨lineEnd, u⟩ := y
      rw [ended, Option.elim_some] at more
      cases more
      obtain ⟨-, same⟩ := Blank.lineEnd_eq_some_iff.mp ended
      refine ⟨w ++ (lineEnd ++ u.takeWhile Blank.isSpace), ?_⟩
      rw [same, List.append_assoc, List.append_assoc, List.takeWhile_append_dropWhile]
    | none =>
      rw [ended, Option.elim_none] at more
      split at more
      case isTrue => cases more
      case isFalse =>
        cases more
        exact ⟨_, List.takeWhile_append_dropWhile.symm⟩
  · rw [heredocLines_apply, heredocLines_apply, found.agrees cs (by omega)]

/-- A heredoc takes its mark first. -/
theorem tracks_heredoc : Tracks (n + 1) (heredoc N) (heredoc M) := by
  refine .exactly_bind <| (Tracks.exactly _).optional.bind fun dash =>
    (Tracks.refl shortens_identifier).bind fun word => (Tracks.refl shortens_lineEnd).bind
      fun _ => (tracks_heredocLines h word).bind fun found => (Tracks.exactly _).bind fun _ => ?_
  split <;> exact .pure _

/-- Each of the terms takes a mark or a name in front of its expressions. -/
theorem tracks_term : Tracks (n + 1) (term N) (term M) :=
  (tracks_group h).map.orElse <| Tracks.map <| (tracks_quoted h).orElse <| (tracks_list h).orElse <|
    (tracks_object h).orElse <|
      (Tracks.refl ((Number.replays_unsigned 0).shortens.orElse
        (Number.replays_signed 0).shortens)).map.orElse <|
        (tracks_heredoc h).orElse (tracks_nameOrCall h)

/-- Each of the steps from a value takes its mark first. -/
theorem tracks_step (newlines : Bool) : Tracks (n + 1) (step N newlines) (step M newlines) :=
  (Tracks.refl (shortens_gap newlines)).bind fun _ =>
    (Tracks.refl ((shortens_exactly _).bind fun _ => shortens_across.bind fun _ =>
      (shortens_identifier.orElse (shortens_dotIndex.orElse (shortens_exactly _))).bind
        fun _ => shortens_pure _)).orElse <|
      (Tracks.refl ((shortens_exactly _).bind fun _ => shortens_across.bind fun _ =>
        (shortens_exactly _).bind fun _ => shortens_across.bind fun _ =>
          (shortens_exactly _).bind fun _ => shortens_pure _)).orElse <|
        .exactly_bind <| (tracks_spaced h).bind fun _ => (Tracks.exactly _).bind fun _ => .pure _

theorem tracks_between {before after : Scan Chars} (newlines : Bool) (lead : before.Shortens)
    (tail : after.Shortens) :
    Tracks n (between before (N newlines) after) (between before (M newlines) after) :=
  (Tracks.refl lead).bind fun _ => (h newlines).bind fun _ =>
    (Tracks.refl tail).bind fun _ => .pure _

theorem tracks_operation (newlines : Bool) (first : Node) :
    Tracks (n + 1) (operation N newlines first) (operation M newlines first) := by
  have blank := shortens_gap newlines
  refine Tracks.orElse ?conditional (Tracks.orElse ?binary (.pure _))
  case conditional =>
    exact (Tracks.refl blank).bind fun _ => .exactly_bind <|
      (tracks_between h newlines blank blank).bind fun _ => (Tracks.exactly _).bind fun _ =>
        (tracks_between h newlines blank (shortens_pure _)).bind fun _ => .pure _
  case binary =>
    exact (Tracks.refl blank).bind fun _ =>
      Tracks.bind_next shortens_binaryOp advances_binaryOp fun _ =>
        (tracks_between h newlines blank (shortens_pure _)).bind fun _ => .pure _

/-- An expression of texts that are one character longer than those on which the nested readers
agree. -/
theorem tracks_expression (newlines : Bool) :
    Tracks (n + 1) (expression N newlines) (expression M newlines) :=
  (Tracks.refl shortens_unaryOp.many).bind fun _ => (tracks_term h).bind fun _ =>
    (tracks_step h _).many.bind fun _ => tracks_operation h _ _

end Productions

/-! ### Without bounds -/

/-- The reader of expressions without a bound on their depth. -/
def nested : Nested := fun newlines cs => expressionUpTo (cs.length + 1) newlines cs

/-- An expression leaves a part of the text, at every depth. -/
theorem shortens_expressionUpTo (depth : Nat) (newlines : Bool) :
    (expressionUpTo depth newlines).Shortens := by
  induction depth generalizing newlines with
  | zero => exact fun _ _ _ run => nomatch run
  | succ depth ih =>
    exact (tracks_expression (fun newlines => (.refl (ih newlines) : Tracks 0 _ _))
      newlines).shortens

theorem expression_nil (N : Nested) (newlines : Bool) : expression N newlines [] = none := rfl

theorem expressionUpTo_nil (depth : Nat) (newlines : Bool) :
    expressionUpTo depth newlines [] = none := by
  cases depth with
  | zero => rfl
  | succ depth => exact expression_nil _ newlines

/-- All depths from the length of a text on give the same expression. -/
theorem tracks_expressionUpTo {n depth more : Nat} (enough : n ≤ depth) (enoughToo : n ≤ more)
    (newlines : Bool) :
    Tracks n (expressionUpTo depth newlines) (expressionUpTo more newlines) := by
  induction n generalizing depth more newlines with
  | zero =>
    refine ⟨shortens_expressionUpTo _ _, fun cs short => ?_⟩
    obtain rfl := List.length_eq_zero_iff.mp (Nat.le_zero.mp short)
    rw [expressionUpTo_nil, expressionUpTo_nil]
  | succ n ih =>
    obtain ⟨depth, rfl⟩ := Nat.exists_eq_succ_of_ne_zero (by omega : depth ≠ 0)
    obtain ⟨more, rfl⟩ := Nat.exists_eq_succ_of_ne_zero (by omega : more ≠ 0)
    exact tracks_expression (fun newlines => ih (by omega) (by omega) newlines) newlines

/-- A nested expression leaves a part of the text. -/
theorem shortens_nested (newlines : Bool) : (nested newlines).Shortens :=
  fun cs a rest run => shortens_expressionUpTo _ newlines cs a rest run

/-- The reader for nested expressions is the fixed point of the grammar of expressions. -/
theorem nested_eq (newlines : Bool) : nested newlines = expression nested newlines := by
  funext cs
  refine (tracks_expression (n := cs.length) (fun newlines => ⟨shortens_expressionUpTo _ newlines,
    fun t short => ?_⟩) newlines).agrees cs (by omega)
  exact (tracks_expressionUpTo (n := t.length) short (by omega) newlines).agrees t (Nat.le_refl _)

theorem partsUpTo_nil (N : Nested) (literal : Scan Chars) (depth : Nat) :
    partsUpTo N literal depth [] = some ([], []) := by
  cases depth with
  | zero => rfl
  | succ depth =>
    rw [partsUpTo, many_eq]
    split
    case h_1 => rfl
    case h_2 => exact if_neg (by simp)

/-- All depths from the length of a text on give the same parts of a template. -/
theorem tracks_partsUpTo_depth {n depth more : Nat} {literal : Scan Chars}
    (shortens : literal.Shortens) (enough : n ≤ depth) (enoughToo : n ≤ more) :
    Tracks n (partsUpTo nested literal depth) (partsUpTo nested literal more) := by
  have refl : ∀ m newlines, Tracks m (nested newlines) (nested newlines) := fun _ newlines =>
    .refl (shortens_nested newlines)
  induction n generalizing depth more with
  | zero =>
    refine ⟨(tracks_partsUpTo (refl 0) shortens depth).shortens, fun cs short => ?_⟩
    obtain rfl := List.length_eq_zero_iff.mp (Nat.le_zero.mp short)
    rw [partsUpTo_nil, partsUpTo_nil]
  | succ n ih =>
    obtain ⟨depth, rfl⟩ := Nat.exists_eq_succ_of_ne_zero (by omega : depth ≠ 0)
    obtain ⟨more, rfl⟩ := Nat.exists_eq_succ_of_ne_zero (by omega : more ≠ 0)
    exact tracks_alternatives (refl n) shortens (ih (by omega) (by omega))

/-- The parts of a template as the grammar has them: literals, interpolations, conditions and loops,
whose parts are such parts again. -/
theorem parts_eq {literal : Scan Chars} (shortens : literal.Shortens) :
    parts nested literal = Scan.many (Part.literal <$> literal <|> interpolation nested <|>
      branch nested (parts nested literal) <|> loop nested (parts nested literal)) := by
  have refl : ∀ m newlines, Tracks m (nested newlines) (nested newlines) := fun _ newlines =>
    .refl (shortens_nested newlines)
  funext cs
  refine (tracks_alternatives (n := cs.length) (refl _) shortens ?_).agrees cs (by omega)
  refine ⟨(tracks_partsUpTo (refl 0) shortens _).shortens, fun t short => ?_⟩
  exact (tracks_partsUpTo_depth (n := t.length) shortens short (by omega)).agrees t (Nat.le_refl _)

end TerraformPins.Hcl.Grammar
