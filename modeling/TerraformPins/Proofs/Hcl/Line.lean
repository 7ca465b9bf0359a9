import TerraformPins.Proofs.Hcl.Structure
import TerraformPins.Proofs.Scan.Takes

/-!
# Pieces that are read wherever they stand

The pieces of a line are read again in front of everything that ends them: blank space in front of
what cannot be blank space, words in front of what belongs to no word, expressions in front of what
no expression goes on with, and the end of a line. That a piece is of this kind is known from one
text in which it was read.

## Main definitions

* `Blank.Fills`, `Named`, `Trails` — blank space, words and ends of lines that are read as they are
* `Stops` — a rest that ends every expression
* `Node.Reads` — what the text of an expression is read as

## Main results

* `Node.reads_of_nested` — an expression that was read once is read wherever it stands
* `Node.reads_text` — a quoted string is read as its value
-/

namespace TerraformPins.Hcl

open Scan Grammar Reader

/-! ### Blank space and words -/

namespace Blank

/-- Blank space that is read as far as it goes. -/
abbrev Fills (newlines : Bool) (b : Chars) : Prop :=
  (gap newlines).Takes b b (Hard newlines)

/-- Blank space that was read fills the place where it was read. -/
theorem fills_of_gap {newlines : Bool} {cs b t : Chars} (run : gap newlines cs = some (b, t))
    (hard : Hard newlines t) (nonempty : newlines = true → t ≠ []) : Fills newlines b :=
  fun _ hard' => gap_again run (.inr ⟨hard, nonempty, hard'⟩)

theorem fills_of_inline {cs b t : Chars} (run : gap false cs = some (b, t)) (hard : Hard false t) :
    Fills false b :=
  fills_of_gap run hard nofun

theorem fills_of_across {cs b t : Chars} {c : Char} (run : gap true cs = some (b, c :: t))
    (hard : Hard true (c :: t)) : Fills true b :=
  fills_of_gap run hard fun _ => List.cons_ne_nil c t

theorem fills_nil (newlines : Bool) : Fills newlines [] :=
  fun _ hard => gap_of_hard hard

/-- What cannot begin blank space over lines cannot begin it on one line. -/
theorem Hard.inside {t : Chars} (h : Hard true t) : Hard false t := by
  intro c first
  have firm := h c first
  simp only [soft, Bool.or_eq_false_iff] at firm ⊢
  exact ⟨firm.1, rfl⟩

/-- What fills a place on one line fills one that may go on over lines. -/
theorem Fills.across {b : Chars} (h : Fills false b) : Fills true b :=
  fun t hard => gap_across (h t hard.inside) (token_eq_none_of_hard hard)

/-- Spaces and tabs fill every gap. -/
theorem fills_of_spaces {newlines : Bool} {b : Chars} (spaces : ∀ c ∈ b, isSpace c = true) :
    Fills newlines b := by
  intro t hard
  cases b with
  | nil => exact gap_of_hard hard
  | cons c b =>
    have ends : ∀ d, t.head? = some d → isSpace d = false :=
      fun d first => isSpace_eq_false_of_soft (hard d first)
    have taken : run1 isSpace (c :: b ++ t) = some (c :: b, t) :=
      run1_eq_some_iff.mpr ⟨List.cons_ne_nil c b, rfl, spaces, ends⟩
    have first : token newlines (c :: b ++ t) = some (c :: b, t) := by
      cases newlines <;> exact orElse_of_eq_some taken
    have more := gap_eq_of_token first (gap_of_hard hard)
    rwa [List.append_nil] at more

/-- A token is skipped with what is behind it. -/
theorem skip_of_token {newlines : Bool} {cs a r : Chars} (h : token newlines cs = some (a, r)) :
    skip newlines cs = skip newlines r := by
  obtain ⟨b, more⟩ := exists_gap newlines r
  exact skip_eq_of_gap (gap_eq_of_token h more)

end Blank

/-- A rest that ends every word. -/
def EndsName (t : Chars) : Prop :=
  ∀ c, t.head? = some c → isWordPart c = false

/-- A text that is read as a word. -/
abbrev Named (word : Chars) : Prop :=
  identifier.Takes word word EndsName

theorem identifier_split {cs word t : Chars} (run : identifier cs = some (word, t)) :
    cs = word ++ t := by
  obtain ⟨c, u, first, more⟩ := bind_eq_some_iff.mp run
  obtain ⟨-, rfl⟩ := one_eq_some_iff.mp first
  obtain ⟨v, u', taken, last⟩ := bind_eq_some_iff.mp more
  cases last
  obtain ⟨rfl, -⟩ := run_eq_some_iff.mp taken
  rfl

/-- A word that was read is a name. -/
theorem named_of_identifier {cs word t : Chars} (run : identifier cs = some (word, t)) :
    Named word := by
  obtain rfl := identifier_split run
  exact .of_replays replays_word run (Nat.le_refl _) trivial fun _ ends => .inr ends

theorem Named.head {word : Chars} (h : Named word) :
    ∃ c w, word = c :: w ∧ isWordStart c = true := by
  have run := h [] nofun
  obtain ⟨c, w, start, same⟩ := leads_identifier _ _ run
  exact ⟨c, w, by simpa using same, start⟩

theorem hard_of_isWordStart {newlines : Bool} {c : Char} (start : isWordStart c = true)
    (t : Chars) : Blank.Hard newlines (c :: t) :=
  hard_of_isStart (by simp [isStart, start])

/-- Blank space ends a word. -/
theorem endsName_of_fills {newlines : Bool} {b t : Chars} (fills : Blank.Fills newlines b)
    (hard : Blank.Hard newlines t) (ends : EndsName t) : EndsName (b ++ t) := by
  intro c first
  cases b with
  | nil => exact ends c first
  | cons d b =>
    obtain rfl := Option.some.inj first
    exact (endsWord_of_soft (Blank.soft_of_gap (fills t hard))).1

/-! ### Ends of lines -/

/-- The end of a line or of the text. -/
def LineTail (t : Chars) : Prop :=
  t = [] ∨ ∃ u, t = '\n' :: u

/-- What stands behind something on its line. -/
abbrev Trails (after : Chars) : Prop :=
  lineRest.Takes after after LineTail

/-- What stands at the end of a line cannot begin blank space on it. -/
theorem LineTail.hard {t : Chars} (h : LineTail t) : Blank.Hard false t := by
  rcases h with rfl | ⟨u, rfl⟩
  · nofun
  · exact fun c first => by obtain rfl := Option.some.inj first; decide

theorem LineTail.noComment {t : Chars} (h : LineTail t) : Blank.lineComment t = none := by
  rcases h with rfl | ⟨u, rfl⟩ <;> rfl

/-- The rest of a line is blank space with or without a line comment. -/
theorem lineRest_eq_some_iff {cs after t : Chars} :
    lineRest cs = some (after, t) ↔ ∃ g u o, Blank.gap false cs = some (g, u) ∧
      Scan.optional Blank.lineComment u = some (o, t) ∧ after = g ++ o.getD [] := by
  rw [lineRest, bind_eq_some_iff]
  constructor
  · rintro ⟨g, u, gap, more⟩
    obtain ⟨o, t', comment, last⟩ := bind_eq_some_iff.mp more
    cases last
    exact ⟨g, u, o, gap, comment, rfl⟩
  · rintro ⟨g, u, o, gap, comment, rfl⟩
    exact ⟨g, u, gap, bind_eq_some_iff.mpr ⟨o, t, comment, rfl⟩⟩

/-- What is behind a structure on its line is a part of the text. -/
theorem lineRest_split {cs after t : Chars} (run : lineRest cs = some (after, t)) :
    cs = after ++ t := by
  obtain ⟨g, u, o, gap, comment, rfl⟩ := lineRest_eq_some_iff.mp run
  rw [Blank.gap_split gap]
  rcases optional_eq_some_iff.mp comment with ⟨c, rfl, taken⟩ | ⟨rfl, -, rfl⟩
  · obtain ⟨lead, b, rfl, rfl, -⟩ := Blank.lineComment_eq_some_iff.mp taken
    simp
  · simp

/-- A line comment is the same comment in front of every end of a line. -/
theorem lineComment_again {u c t : Chars} (taken : Blank.lineComment u = some (c, t)) {t' : Chars}
    (tail : LineTail t') : Blank.lineComment (c ++ t') = some (c, t') ∧ Near false u (c ++ t') := by
  obtain ⟨lead, b, rfl, rfl, mark, inside, -⟩ := Blank.lineComment_eq_some_iff.mp taken
  refine
    ⟨Blank.lineComment_eq_some_iff.mpr ⟨lead, b, rfl, rfl, mark, inside, fun d first => ?_⟩, ?_⟩
  · rcases tail with rfl | ⟨v, rfl⟩
    · cases first
    · obtain rfl := Option.some.inj first
      decide
  · rcases mark with rfl | rfl
    · exact near_of_hard (by decide) (by decide)
    · exact .inl ⟨'/', '/', _, _, rfl, rfl, by decide⟩

/-- It trails a structure again in front of another end of a line. -/
theorem trails_of_lineRest {cs after t : Chars} (run : lineRest cs = some (after, t))
    (tail : LineTail t) : Trails after := by
  intro t' tail'
  obtain ⟨g, u, o, gap, comment, rfl⟩ := lineRest_eq_some_iff.mp run
  rcases optional_eq_some_iff.mp comment with ⟨c, rfl, taken⟩ | ⟨rfl, -, rfl⟩
  · obtain ⟨taken', near⟩ := lineComment_again taken tail'
    refine lineRest_eq_some_iff.mpr ⟨g, c ++ t', some c, ?_, optional_of_eq_some taken', rfl⟩
    rw [Option.getD_some, List.append_assoc]
    exact Blank.gap_again gap near
  · refine lineRest_eq_some_iff.mpr ⟨g, t', none, ?_, optional_of_eq_none tail'.noComment, rfl⟩
    rw [Option.getD_none, List.append_nil]
    exact Blank.gap_again gap (.inr ⟨tail.hard, nofun, tail'.hard⟩)

theorem trails_nil : Trails [] :=
  trails_of_lineRest (show lineRest [] = some ([], []) from rfl) (.inl rfl)

/-! ### Expressions -/

/-- A rest that ends every expression. -/
structure Stops (t : Chars) : Prop where
  head : ∀ c, t.head? = some c → isWordPart c = false ∧ c ≠ '.'
  calm : Calm (Blank.skip true t)

/-- What stops expressions may follow one in the place of every other rest. -/
theorem Stops.follow {t : Chars} (h : Stops t) (r : Chars) : Follow r t :=
  ⟨.inr h.head, settled_of_calm h.calm⟩

/-- A mark that cannot be blank space ends an expression, also behind blank space. -/
theorem stops_of_fills {newlines : Bool} {b t : Chars} (fills : Blank.Fills newlines b)
    (hard : Blank.Hard true t) (head : ∀ c, t.head? = some c → isWordPart c = false ∧ c ≠ '.')
    (calm : Calm t) : Stops (b ++ t) := by
  have gap : Blank.gap true (b ++ t) = some (b, t) := by
    cases newlines with
    | true => exact fills t hard
    | false => exact fills.across t hard
  refine ⟨fun c first => ?_, by rwa [Blank.skip_eq_of_gap gap]⟩
  cases b with
  | nil => exact head c first
  | cons d b =>
    obtain rfl := Option.some.inj first
    exact endsWord_of_soft (Blank.soft_of_gap gap)

/-- A mark behind blank space stops expressions. -/
theorem stops_of_mark {newlines : Bool} {b : Chars} (fills : Blank.Fills newlines b) {c : Char}
    (mark : isMark c = true) (t : Chars) : Stops (b ++ c :: t) := by
  have firm := firm_of_mark mark t
  refine stops_of_fills fills firm.hard (fun d first => ?_) firm.calm
  have each : c = ',' ∨ c = ']' ∨ c = ')' ∨ c = '}' ∨ c = '~' ∨ c = ':' := by
    simpa [isMark] using mark
  rw [← Option.some.inj first]
  rcases each with rfl | rfl | rfl | rfl | rfl | rfl <;> decide

/-- The end of a line, with nothing on the next lines that an expression could go on with. -/
def LineEnds (t : Chars) : Prop :=
  t = [] ∨ ∃ u, t = '\n' :: u ∧ Calm (Blank.skip true u)

theorem LineEnds.tail {t : Chars} (h : LineEnds t) : LineTail t :=
  h.imp id fun ⟨u, same, _⟩ => ⟨u, same⟩

theorem calm_nil : Calm [] :=
  ⟨by simp, by simp, by simp, rfl, by simp⟩

/-- No expression goes on behind the end of a line. -/
theorem LineEnds.calm {t : Chars} (h : LineEnds t) : Calm (Blank.skip true t) := by
  rcases h with rfl | ⟨u, rfl, calm⟩
  · exact calm_nil
  · have ended : Blank.token true ('\n' :: u) = some (['\n'], u) :=
      Blank.token_of_lineEnd (Blank.lineEnd_eq_some_iff.mpr ⟨.inl rfl, rfl⟩)
    rwa [Blank.skip_of_token ended]

/-- The end of a line ends an expression. -/
theorem stops_of_trails {after t : Chars} (trails : Trails after) (ends : LineEnds t) :
    Stops (after ++ t) := by
  obtain ⟨g, u, o, gap, comment, rfl⟩ := lineRest_eq_some_iff.mp (trails t ends.tail)
  -- With a comment the line ends behind the comment, and without one behind the spaces.
  rcases optional_eq_some_iff.mp comment with ⟨c, rfl, taken⟩ | ⟨rfl, -, rfl⟩
  · rw [Option.getD_some, List.append_assoc] at gap ⊢
    obtain rfl := List.append_cancel_left (Blank.gap_split gap)
    refine ⟨fun d first => ?_, ?_⟩
    · -- without spaces in front, the mark of the comment ends the word
      cases g with
      | nil =>
        obtain ⟨lead, b, rfl, -, mark, -⟩ := Blank.lineComment_eq_some_iff.mp taken
        rcases mark with rfl | rfl <;> obtain rfl := Option.some.inj first <;> decide
      | cons e g =>
        obtain rfl := Option.some.inj first
        exact endsWord_of_soft (Blank.soft_of_gap gap)
    · rw [← Blank.skip_skip, Blank.skip_eq_of_gap gap,
        Blank.skip_of_token (Blank.token_of_lineComment taken)]
      exact ends.calm
  · rw [Option.getD_none, List.append_nil] at gap ⊢
    refine ⟨fun d first => ?_, ?_⟩
    · cases g with
      | nil =>
        rcases ends.tail with rfl | ⟨v, rfl⟩
        · cases first
        · obtain rfl := Option.some.inj first
          decide
      | cons e g =>
        obtain rfl := Option.some.inj first
        exact endsWord_of_soft (Blank.soft_of_gap gap)
    · rw [← Blank.skip_skip, Blank.skip_eq_of_gap gap]
      exact ends.calm

/-- What the text of an expression is read as, wherever it stands. -/
abbrev Node.Reads (node node' : Node) : Prop :=
  (nested false).Takes node.chars node' Stops

/-- A value that was read once is read again where expressions stop. -/
theorem Node.reads_of_nested {node : Node} {t : Chars}
    (run : nested false (node.chars ++ t) = some (node, t)) (whole : node.Whole) :
    node.Reads node :=
  .of_replays (fun n => replays_nested n false) run (Nat.le_refl _) whole fun _ stops =>
    stops.follow t

/-- A quoted text is read where it stands. -/
theorem quoted_text (value t : Chars) :
    quoted nested ((Node.text value).chars ++ t) = some (.text value, t) := by
  have close : ∀ u, Quoted.part ('"' :: u) = none := Quoted.part_eq_none_quote
  have taken : exactly ['"'] ((Node.text value).chars ++ t) =
      some (['"'], Quoted.encode value ++ '"' :: t) := by
    simpa [Node.chars] using exactly_append ['"'] (Quoted.encode value ++ '"' :: t)
  -- An empty text has no parts, and any other one is a single literal.
  have found : parts nested Quoted.part (Quoted.encode value ++ '"' :: t) =
      some (if value = [] then [] else [.literal value], '"' :: t) := by
    have ends : ∀ u, part Quoted.part (parts nested Quoted.part) ('"' :: u) = none := by
      refine fun u => part_eq_none_of_end (close u) fun c v mark => ?_
      rcases mark with rfl | rfl <;> simp
    have stops : Scan.many (part Quoted.part (parts nested Quoted.part)) ('"' :: t) =
        some ([], '"' :: t) :=
      many_eq_some_of_chain (.nil fun a r more => by rw [ends] at more; cases more)
    rw [parts_eq (Light.shortens (Replays.light Quoted.replays_part))]
    split
    case isTrue empty =>
      subst empty
      exact stops
    case isFalse nonempty =>
      have first : part Quoted.part (parts nested Quoted.part) (Quoted.encode value ++ '"' :: t) =
          some (.literal value, '"' :: t) := by
        refine orElse_of_eq_some ?_
        rw [map_apply, Quoted.part_encode nonempty]
        rfl
      refine many_eq_some_of_chain (.cons first ?_ (many_iff_chain.mp stops))
      have shorter := Quoted.advances_part _ _ _ (Quoted.part_encode nonempty t)
      exact shorter
  have finish : exactly ['"'] ('"' :: t) = some (['"'], t) := exactly_append ['"'] t
  rw [quoted, bind_of_eq_some taken, bind_of_eq_some found, bind_of_eq_some finish]
  split
  case isTrue empty => rw [empty]; rfl
  case isFalse => rfl

/-- A quoted string is an expression if no step and no operator follows on the line. -/
theorem nested_text {value t : Chars} (calm : Calm (Blank.skip false t)) :
    nested false ((Node.text value).chars ++ t) = some (.text value, t) := by
  have noSign : unaryOp ((Node.text value).chars ++ t) = none := leads_unaryOp.eq_none (by decide)
  have noGroup : group nested ((Node.text value).chars ++ t) = none :=
    leads_group.eq_none (by decide)
  have first : term nested ((Node.text value).chars ++ t) = some ((.text value, false), t) := by
    rw [term, orElse_of_eq_none (by rw [map_apply, noGroup]; rfl), map_apply,
      orElse_of_eq_some (quoted_text value t)]
    rfl
  have stops : step nested false t = none := step_eq_none calm.noIndex calm.noDot
  have steps : Scan.many (step nested false) t = some ([], t) :=
    many_eq_some_of_chain (.nil fun a r taken => by rw [stops] at taken; cases taken)
  refine nested_eq_some_iff.mpr ⟨[], _, _, t, many_unaryOp_nil noSign, first, ?_⟩
  rw [termTail, Bool.or_self, bind_of_eq_some steps, operation_eq,
    orElse_of_eq_none (question_eq_none calm.noQuestion),
    orElse_of_eq_none (operator_eq_none calm.noOperator)]
  rfl

theorem Node.reads_text (value : Chars) : (Node.text value).Reads (.text value) :=
  fun _ stops => nested_text (stops.calm.skip false)

end TerraformPins.Hcl
