import TerraformPins.Proofs.Hcl.KeyStart
import TerraformPins.Proofs.Scan.Light
import TerraformPins.Proofs.Slot.Text

/-!
# Reading attributes and blocks

The reader of a document bounds the nesting of blocks by the length of the text. The bound is no
restriction: a block is longer than what is inside it. Printed again, what is read from a text
weighs at most as much as the text.

## Main definitions

* `Reader.item` — an attribute or a block, without a bound on the depth
* `Structure.Whole` — no heredoc in a structure is without lines
* `Structure.bareChars` — the text of a structure without its layout

## Main results

* `Reader.item_eq` — the recursion without bounds
* `Reader.light_item`, `Reader.light_line` — the weight of structures and lines
-/

namespace TerraformPins.Hcl

open Scan Grammar

mutual

/-- Every heredoc in a structure has lines. -/
def Structure.Whole : Structure → Prop
  | .attr _ _ _ value => value.Whole
  | .block _ _ _ _ _ items => WholeStructures items

/-- Every heredoc in some structures has lines. -/
def WholeStructures : List Structure → Prop
  | [] => True
  | s :: rest => s.Whole ∧ WholeStructures rest

end

mutual

/-- Whether a structure is whole. -/
def Structure.decideWhole : (s : Structure) → Decidable s.Whole
  | .attr _ _ _ value => value.decideWhole
  | .block _ _ _ _ _ items => decideWholeStructures items

/-- Whether structures are whole. -/
def decideWholeStructures : (items : List Structure) → Decidable (WholeStructures items)
  | [] => isTrue trivial
  | s :: rest => @instDecidableAnd _ _ s.decideWhole (decideWholeStructures rest)

end

/-- Structures are whole if each of them is. -/
theorem wholeStructures_iff {items : List Structure} :
    WholeStructures items ↔ ∀ s ∈ items, s.Whole := by
  induction items with
  | nil => simp [WholeStructures]
  | cons s rest ih => simp [WholeStructures, ih]

/-- The text of a structure without its layout. -/
def Structure.bareChars : Structure → Chars
  | .attr _ key gap value => key ++ gap.getD [' '] ++ '=' :: value.chars [' ']
  | .block _ word gap labels frame items =>
    word ++ gap ++ (labels.map Label.chars).flatten ++ '{' ::
      (Body.innerChars ⟨frame, items⟩ ++ ['}'])

/-- A structure is printed with what is in front of it and behind it around what it is without
them. -/
theorem Structure.chars_eq (s : Structure) : s.chars = s.layout.around [] s.bareChars := by
  cases s with
  | attr layout key gap value => rfl
  | block layout word gap labels frame items =>
    simp [Structure.chars, Structure.bareChars, Structure.layout, Body.innerChars]

/-- What a structure is without the places around it does not depend on them. -/
theorem Structure.bareChars_withLayout (s : Structure) (layout : Layout) :
    (s.withLayout layout).bareChars = s.bareChars := by
  cases s <;> rfl

theorem Structure.layout_withLayout (s : Structure) (layout : Layout) :
    (s.withLayout layout).layout = layout := by
  cases s <;> rfl

/-- A structure that is put in a place is printed with what stands there around it. -/
theorem Structure.chars_withLayout (s : Structure) (before after : Chars) :
    (s.withLayout (.written before after)).chars = before ++ s.bareChars ++ after := by
  rw [chars_eq, layout_withLayout, bareChars_withLayout]
  rfl

/-- The gauge of labels. -/
def Label.gauge : Gauge Label := ⟨fun l => weight l.chars, fun _ => True⟩

namespace Reader

/-! ### Without bounds -/

/-- An attribute or a block. -/
def item : Scan Structure := fun cs => structureUpTo (cs.length + 1) cs

theorem shortens_assignment : assignment.Shortens :=
  have value : (between Blank.inline node (pure [])).Shortens :=
    shortens_inline.bind fun _ => (shortens_nested false).bind fun _ =>
      (shortens_pure _).bind fun _ =>
      shortens_pure _
  shortens_identifier.bind fun _ => shortens_inline.bind fun _ => (shortens_exactly _).bind fun _ =>
    value.bind fun _ => shortens_pure _

theorem shortens_label : label.Shortens :=
  ((shortens_exactly _).bind fun _ =>
    (Light.shortens (Replays.light Quoted.replays_part)).optional.bind fun _ =>
      (shortens_exactly _).bind fun _ => shortens_inline.bind fun _ => shortens_pure _).orElse
    (shortens_identifier.bind fun _ => shortens_inline.bind fun _ => shortens_pure _)

theorem shortens_lineRest : lineRest.Shortens :=
  shortens_inline.bind fun _ => shortens_lineComment.optional.bind fun _ => shortens_pure _

/-- What ends a line, and whether it is a line end. -/
def lineStop : Scan Bool :=
  (fun _ => true) <$> Blank.lineEnd <|> (fun _ => false) <$> Scan.atEnd

/-- A line: what is in front of its structure, the structure, what is behind it, and the line
end. -/
theorem line_eq (inner : Scan Structure) : line inner = (do
    let before ← Blank.across
    let item ← inner
    let after ← lineRest
    let ends ← lineStop
    pure (item.withLayout (.written before after), ends)) := rfl

/-- A line stops at a line feed, with or without a carriage return, or at the end of the text. -/
theorem lineStop_eq_some_iff {cs r : Chars} {ends : Bool} :
    lineStop cs = some (ends, r) ↔
      (ends = true ∧ ∃ le, (le = ['\n'] ∨ le = ['\r', '\n']) ∧ cs = le ++ r) ∨
        (ends = false ∧ cs = [] ∧ r = []) := by
  rw [lineStop, orElse_eq_some_iff]
  constructor
  · rintro (run | ⟨-, run⟩)
    · rw [map_apply, Option.map_eq_some_iff] at run
      obtain ⟨⟨le, t⟩, taken, same⟩ := run
      cases same
      exact .inl ⟨rfl, le, Blank.lineEnd_eq_some_iff.mp taken⟩
    · rw [map_apply, Option.map_eq_some_iff] at run
      obtain ⟨⟨_, t⟩, taken, same⟩ := run
      cases same
      cases cs with
      | nil =>
        cases taken
        exact .inr ⟨rfl, rfl, rfl⟩
      | cons c cs => cases taken
  · rintro (⟨rfl, le, kind, same⟩ | ⟨rfl, rfl, rfl⟩)
    · left
      rw [map_apply, Blank.lineEnd_eq_some_iff.mpr ⟨kind, same⟩]
      rfl
    · exact .inr ⟨rfl, rfl⟩

theorem shortens_lineStop : lineStop.Shortens := by
  intro cs ends r run
  rcases lineStop_eq_some_iff.mp run with ⟨-, le, -, rfl⟩ | ⟨-, rfl, rfl⟩
  · exact ⟨le, rfl⟩
  · exact ⟨[], rfl⟩

theorem shortens_rowBody : rowBody.Shortens :=
  (shortens_inline.bind fun _ => shortens_assignment.bind fun _ => shortens_inline.bind fun _ =>
    shortens_pure _).orElse (shortens_inline.bind fun _ => shortens_pure _)

section Tracks

variable {n : Nat} {p q : Scan Structure} (h : Tracks n p q)
include h

/-- A line depends on the reader for its structure up to the length of the text. -/
theorem tracks_line : Tracks n (line p) (line q) :=
  (Tracks.refl shortens_across).bind fun _ => h.bind fun _ => (Tracks.refl shortens_lineRest).bind
    fun _ => (Tracks.refl shortens_lineStop).bind fun _ => .pure _

theorem tracks_lines : Tracks n (lines p) (lines q) :=
  (tracks_line h).many.bind fun _ => (Tracks.refl (shortens_guard _)).bind fun _ => .pure _

theorem tracks_linesBody : Tracks n (linesBody p) (linesBody q) :=
  (Tracks.refl shortens_lineRest).bind fun _ => (Tracks.refl shortens_lineEnd).bind fun _ =>
    (tracks_lines h).bind fun _ => (Tracks.refl shortens_across).bind fun _ => .pure _

/-- The structures of a block stand behind its brace, so the text may be longer by one. -/
theorem tracks_block : Tracks (n + 1) (block p) (block q) :=
  Tracks.bind_next shortens_identifier advances_identifier fun _ =>
    (Tracks.refl shortens_inline).bind fun _ => (Tracks.refl shortens_label.many).bind fun _ =>
      (Tracks.exactly _).bind fun _ =>
        ((tracks_linesBody h).orElse (Tracks.refl shortens_rowBody)).bind fun _ =>
          (Tracks.exactly _).bind fun _ => .pure _

end Tracks

/-- A structure leaves a part of the text, at every depth. -/
theorem shortens_structureUpTo (depth : Nat) : (structureUpTo depth).Shortens := by
  induction depth with
  | zero => exact fun _ _ _ run => nomatch run
  | succ depth ih =>
    exact shortens_assignment.orElse (tracks_block (.refl ih : Tracks 0 _ _)).shortens

theorem structureUpTo_nil (depth : Nat) : structureUpTo depth [] = none := by
  cases depth <;> rfl

/-- All depths from the length of a text on give the same structure. -/
theorem tracks_structureUpTo {n depth more : Nat} (enough : n ≤ depth) (enoughToo : n ≤ more) :
    Tracks n (structureUpTo depth) (structureUpTo more) := by
  induction n generalizing depth more with
  | zero =>
    refine ⟨shortens_structureUpTo _, fun cs short => ?_⟩
    obtain rfl := List.length_eq_zero_iff.mp (Nat.le_zero.mp short)
    rw [structureUpTo_nil, structureUpTo_nil]
  | succ n ih =>
    obtain ⟨depth, rfl⟩ := Nat.exists_eq_succ_of_ne_zero (by omega : depth ≠ 0)
    obtain ⟨more, rfl⟩ := Nat.exists_eq_succ_of_ne_zero (by omega : more ≠ 0)
    exact (Tracks.refl shortens_assignment).orElse (tracks_block (ih (by omega) (by omega)))

/-- A structure is read like one that is as deep as the text is long. -/
theorem tracks_item (n : Nat) : Tracks n (structureUpTo (n + 1)) item :=
  ⟨shortens_structureUpTo _, fun t short =>
    (tracks_structureUpTo (n := t.length) (by omega) (by omega)).agrees t (Nat.le_refl _)⟩

/-- A structure is an attribute or a block of structures. -/
theorem item_eq : item = (assignment <|> block item) := by
  funext cs
  have inner : Tracks cs.length (structureUpTo cs.length) item :=
    ⟨shortens_structureUpTo _, fun t short =>
      (tracks_structureUpTo (n := t.length) short (by omega)).agrees t (Nat.le_refl _)⟩
  exact ((Tracks.refl shortens_assignment).orElse (tracks_block inner)).agrees cs (by omega)

/-- A document is made of lines and of what stands behind the last one. -/
theorem document_eq : document = (do
    let x ← lines item
    let closing ← Blank.across
    Scan.atEnd
    pure ⟨⟨[], closing, false, x.2⟩, x.1⟩) := by
  have atEnd : Scan.atEnd.Shortens := by
    intro cs _ r run
    cases cs with
    | nil => exact ⟨[], by cases run; rfl⟩
    | cons c cs => cases run
  funext cs
  exact ((tracks_lines (tracks_item cs.length)).bind fun _ => (Tracks.refl shortens_across).bind
    fun _ => (Tracks.refl atEnd).bind fun _ => Tracks.pure _).agrees cs (Nat.le_refl _)

/-! ### Labels -/

/-- Two rests behind a label. -/
def LabelEnd (r r' : Chars) : Prop :=
  Near false r r' ∧ r.head? = r'.head?

/-- What is behind a label is read again in front of every rest that ends a label as well. -/
theorem replays_labelEnd {n credit : Nat} {claim : Prop} {quoted : Bool} {text : Chars}
    (paid : weight (Label.chars ⟨quoted, text, []⟩) ≤ credit) (holds : claim) :
    Replays n credit claim Label.gauge LabelEnd (do
      let after ← Blank.inline
      pure ⟨quoted, text, after⟩) := by
  have last : Replays n 0 True Gauge.text LabelEnd Blank.inline :=
    (Blank.replays_gap n false).mono (fun _ _ ends => ends.1) (Nat.le_refl n)
  refine last.bind_pure (fun after => ?_) fun _ _ _ => ⟨holds, trivial⟩
  simp only [Label.gauge, Label.chars, weight_append, weight_nil, Gauge.text] at paid ⊢
  omega

theorem leads_quotedLabel {β : Type} {f : Chars → Scan β} :
    Leads (· == '"') (exactly ['"'] >>= f) :=
  (leads_exactly '"' []).bind

/-- A label is read again, in quotes or as a name. -/
theorem replays_label (n : Nat) : Replays n 0 True Label.gauge LabelEnd label := by
  have quote : heft '"' = 1 := by decide
  refine Replays.orElse_of_leads ?quoted ?word leads_quotedLabel leads_identifier.bind
    fun c start => ?_
  case quoted =>
    refine Replays.lead_bind
      (Replays.optional_bind (Quoted.replays_part n) (fun text => ?_) ?_ ?_ ?_)
    · refine Replays.lead_bind (replays_labelEnd ?_ ⟨trivial, trivial⟩)
      simp only [Label.chars, Quoted.written, weight_cons, weight_append, weight_nil, quote,
        if_true, Option.getD_some]
      omega
    · refine Replays.lead_bind (replays_labelEnd ?_ trivial)
      simp [Label.chars, Quoted.encode, quote]
    · intro text l w rest rest' run run' _ _
      obtain ⟨t, same, -⟩ := exactly_bind_eq_some_iff.mp run
      obtain ⟨t', same', -⟩ := exactly_bind_eq_some_iff.mp run'
      exact .inl ⟨t, t', same, same'⟩
    · intro l w rest rest' _ _ run' _
      obtain ⟨t', same', -⟩ := exactly_bind_eq_some_iff.mp run'
      rw [same']
      exact Quoted.part_eq_none_quote t'
  case word =>
    refine Replays.bind (replays_word n) (fun text => replays_labelEnd ?_ ⟨trivial, trivial⟩)
      fun text l w rest rest' run run' ends => ?_
    · simp [Label.chars, Gauge.text]
    · cases w with
      | nil => exact .inl ends.2
      | cons c w => exact .inl rfl
  · -- No name begins with a quote, so the choice is made by the first character.
    rw [beq_eq_false_iff_ne]
    rintro rfl
    exact absurd start (by decide)

/-- A label begins with a quote or like a name. -/
theorem leads_label : Leads (fun c => c == '"' || isWordStart c) label :=
  leads_quotedLabel.either leads_identifier.bind

/-- A label takes at least one character. -/
theorem advances_label : label.Advances :=
  ((advances_exactly '"' []).bind fun _ =>
    (Light.shortens (Replays.light Quoted.replays_part)).optional.bind fun _ =>
      (shortens_exactly _).bind fun _ => shortens_inline.bind fun _ => shortens_pure _).orElse
    (advances_identifier.bind fun _ => shortens_inline.bind fun _ => shortens_pure _)

/-- Labels are read again in front of every opening brace. -/
theorem replays_labels (n : Nat) : Replays n 0 True (Gauge.list Label.gauge)
    (fun r r' => ∃ t t', r = '{' :: t ∧ r' = '{' :: t') (Scan.many label) := by
  refine (replays_label n).many advances_label (fun l w rest rest' run run' _ _ _ ends => ?_)
    fun r r' ends => ?_
  · have shorter := advances_label _ _ _ run
    cases w with
    | nil => exact absurd shorter (Nat.lt_irrefl _)
    | cons c w =>
      obtain ⟨d, t, ok, same⟩ := leads_label _ _ run
      obtain ⟨rfl, -⟩ := List.cons.inj same
      have firm : Blank.soft false c = false := by
        simp only [Bool.or_eq_true, beq_iff_eq] at ok
        rcases ok with rfl | start
        · decide
        · have front : isStart c = true := by simp [isStart, start]
          exact hard_of_isStart (t := []) front c rfl
      exact ⟨near_of_hard firm firm, rfl⟩
  · obtain ⟨t, t', rfl, rfl⟩ := ends
    exact ⟨⟨near_of_hard (by decide) (by decide), rfl⟩, fun _ => leads_label.eq_none (by decide)⟩

/-! ### Weights -/

/-- Blank space weighs what its characters weigh. -/
theorem light_gap (newlines : Bool) : Light 0 weight (Blank.gap newlines) :=
  Replays.light fun n => Blank.replays_gap n newlines

theorem light_inline : Light 0 weight Blank.inline :=
  light_gap false

theorem light_across : Light 0 weight Blank.across :=
  light_gap true

theorem light_identifier : Light 0 weight identifier :=
  Replays.light replays_word

/-- A line end weighs no more than a line feed. -/
theorem light_lineEnd : Light 0 (fun _ => heft '\n') Blank.lineEnd := by
  intro cs le r run
  obtain ⟨kind, rfl⟩ := Blank.lineEnd_eq_some_iff.mp run
  refine ⟨le, rfl, ?_⟩
  rcases kind with rfl | rfl <;> decide

/-- The end of a line weighs what the line feed in its place weighs, if there is one. -/
theorem light_lineStop : Light 0 (fun ends => if ends then heft '\n' else 0) lineStop := by
  intro cs ends r run
  rcases lineStop_eq_some_iff.mp run with ⟨rfl, le, kind, rfl⟩ | ⟨rfl, rfl, rfl⟩
  · refine ⟨le, rfl, ?_⟩
    rcases kind with rfl | rfl <;> decide
  · exact ⟨[], rfl, Nat.zero_le _⟩

theorem light_lineRest : Light 0 weight lineRest := by
  refine light_inline.bind fun gap => (Light.optional (Replays.light replays_lineComment)).bind
    fun comment => Light.pure ?_
  cases comment <;> simp [Gauge.text]

theorem weight_chars_blank (e : Expr) : weight (e.chars [' ']) = weight (e.chars []) := by
  obtain ⟨⟨before, after⟩, node⟩ := e
  have blank : heft ' ' = 0 := by decide
  cases before <;> simp [Expr.chars, Layout.around, blank]

/-- An attribute weighs no more than its text. -/
theorem light_assignment : Light 0 (fun s => weight s.bareChars) assignment := by
  have value : Light 0 (fun e => weight (e.chars [])) (between Blank.inline node (pure [])) :=
    Replays.light fun n => replays_operand (replays_nested n) false
  refine light_identifier.bind fun word => light_inline.bind fun gap => Light.exactly_bind <|
    value.bind fun value => Light.pure ?_
  simp only [Structure.bareChars, weight_append, weight_cons, weight_nil, weight_chars_blank,
    Option.getD_some]
  omega

theorem weight_labels (labels : List Label) :
    weight (labels.map Label.chars).flatten = total (fun l => weight l.chars) labels := by
  induction labels with
  | nil => rfl
  | cons l rest ih => simp [ih]

/-- The weight of a line. -/
def lineWeight (x : Structure × Bool) : Nat :=
  weight x.1.chars + if x.2 then heft '\n' else 0

section Weights

variable {p : Scan Structure} (h : Light 0 (fun s => weight s.bareChars) p) (stops : p [] = none)
include h

/-- A line weighs no more than its text, if its structure does. -/
theorem light_line : Light 0 lineWeight (line p) := by
  rw [line_eq]
  refine light_across.bind fun before => h.bind fun item => light_lineRest.bind fun after =>
    light_lineStop.bind fun ends => Light.pure ?_
  simp only [lineWeight, Structure.chars_withLayout, weight_append]
  omega

omit h in
include stops in
theorem line_nil : line p [] = none := by
  have gap : Blank.across [] = some ([], []) := rfl
  rw [line_eq, bind_of_eq_some gap, bind_of_eq_none stops]

omit h in
include stops in
/-- Only the last line can lack its end. -/
theorem weight_linesChars {cs rest : Chars} {found : List (Structure × Bool)}
    (chain : Chain (line p) cs found rest) :
    weight (linesChars (found.all (·.2)) (found.map (·.1))) = total lineWeight found := by
  induction chain with
  | nil => rfl
  | @cons cs t rest x more taken _ chain ih =>
    obtain ⟨s, ends⟩ := x
    rw [total_cons, ← ih, List.map_cons, List.all_cons, linesChars, lineWeight]
    cases ends with
    | true =>
      have last : ¬ ((more.map (·.1)).isEmpty = true ∧ ¬ (more.all (·.2)) = true) := by
        cases more <;> simp
      rw [Bool.true_and, if_neg last]
      simp [Nat.add_assoc]
    | false =>
      -- nothing can be read behind the end of the text
      obtain ⟨item, t₁, -, taken⟩ := bind_eq_some_iff.mp (line_eq p ▸ taken)
      obtain ⟨item, t₂, -, taken⟩ := bind_eq_some_iff.mp taken
      obtain ⟨after, t₃, -, taken⟩ := bind_eq_some_iff.mp taken
      obtain ⟨ends, t₄, stop, last⟩ := bind_eq_some_iff.mp taken
      cases last
      obtain ⟨wrong, -⟩ | ⟨-, -, rfl⟩ := lineStop_eq_some_iff.mp stop
      · cases wrong
      · cases chain with
        | nil => simp [linesChars]
        | cons taken => rw [line_nil stops] at taken; cases taken

include stops

/-- The lines of a body weigh no more than their text. -/
theorem light_lines : Light 0 (fun x => weight (linesChars x.2 x.1)) (lines p) := by
  intro cs x rest run
  obtain ⟨found, t, many, more⟩ := bind_eq_some_iff.mp run
  obtain ⟨w, rfl, light⟩ := (light_line h).many _ _ _ many
  rw [← weight_linesChars stops (many_iff_chain.mp many)] at light
  obtain ⟨u, t', guarded, last⟩ := bind_eq_some_iff.mp more
  cases last
  rw [guard_apply] at guarded
  split at guarded
  case isTrue =>
    cases guarded
    exact ⟨w, rfl, light⟩
  case isFalse => cases guarded

theorem light_linesBody : Light 0 (fun b => weight b.innerChars) (linesBody p) := by
  refine light_lineRest.bind fun opening => light_lineEnd.bind fun _ => (light_lines h stops).bind
    fun x => light_across.bind fun closing => Light.pure ?_
  simp only [Body.innerChars, Bool.false_eq_true, if_false, weight_append, weight_cons]
  omega

omit h stops in
theorem light_rowBody : Light 0 (fun b => weight b.innerChars) rowBody := by
  refine Light.orElse (light_inline.bind fun before => light_assignment.bind fun item =>
    light_inline.bind fun after => Light.pure ?_) (light_inline.bind fun closing => Light.pure ?_)
  · simp only [Body.innerChars, rowChars, if_true, Structure.chars_withLayout, weight_append,
      weight_nil]
    omega
  · simp [Body.innerChars, rowChars]

/-- A block weighs no more than its text, if its structures do. -/
theorem light_block : Light 0 (fun s => weight s.bareChars) (block p) := by
  refine light_identifier.bind fun word => light_inline.bind fun gap =>
    (Replays.light replays_labels).bind fun labels => Light.exactly_bind <|
      ((light_linesBody h stops).orElse light_rowBody).bind fun body => Light.exactly_bind <|
        Light.pure ?_
  have same : (⟨body.frame, body.items⟩ : Body) = body := rfl
  simp only [Structure.bareChars, same, weight_append, weight_cons, weight_nil, weight_labels,
    Gauge.list, Label.gauge]
  omega

end Weights

/-- A structure weighs no more than its text, by induction on the depth. -/
theorem light_structureUpTo (depth : Nat) :
    Light 0 (fun s => weight s.bareChars) (structureUpTo depth) := by
  induction depth with
  | zero => exact fun _ _ _ run => nomatch run
  | succ depth ih => exact light_assignment.orElse (light_block ih (structureUpTo_nil depth))

theorem light_item : Light 0 (fun s => weight s.bareChars) item :=
  fun cs s rest run => light_structureUpTo _ cs s rest run

theorem item_nil : item [] = none := rfl

end Reader

end TerraformPins.Hcl
