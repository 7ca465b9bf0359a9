import TerraformPins.Proofs.Hcl.Line

/-!
# Structures that are read back

A structure is readable if its text is read as that structure, with what the printer puts in the
places where nothing is written. Whether it is depends on its pieces only, so that a readable
structure stays one when a piece is exchanged for another one of the kind.

## Main definitions

* `Structure.asRead` — a structure with everything written that the printer puts
* `Structure.Placed` — a structure whose layout is read on a line of its own
* `Structure.Readable` — a structure whose pieces are read wherever they stand

## Main results

* `Reader.takes_item` — a readable structure is read as it is printed
* `Reader.takes_lines` — so are the lines of a body
-/

namespace TerraformPins.Hcl

open Scan Grammar Reader

/-! ### What is written when a tree is printed -/

/-- What is read behind a value in an object. -/
def behindValue : Scan (Chars × Stop) := do
  let after ← Blank.inline
  let (comment, stop) ← entryStop
  pure (after ++ comment, stop)

/-- The value of an attribute or an entry as it is read back. -/
def Expr.written (e : Expr) (after : Chars) : Expr :=
  .mk (.written (e.layout.before.getD [' ']) after) e.node

/-- An entry as it is read back. -/
def Entry.asRead (e : Entry) : Entry :=
  .mk
    (.mk (.written (e.key.layout.before.getD []) (e.key.layout.after.getD [' '])) e.key.node)
    e.sign (e.value.written (e.value.layout.after.getD [])) e.stop

/-- The only entry of an object that had none, as it is read back. Of the blank space in front of
the brace the entry takes what is on its line. -/
def Entry.asReadAlone (e : Entry) (closing : Chars) : Node :=
  match behindValue (closing ++ ['}']) with
  | some (x, rest) =>
    .object [.mk e.asRead.key e.sign (e.value.written x.1) x.2] rest.dropLast
  | none => .object [e.asRead] closing

/-- An expression as it is read back in the place of a value. -/
def Node.asRead : Node → Node
  | .object [e] closing =>
    if e.value.layout.after = none ∧ e.stop = .brace then e.asReadAlone closing
    else .object [e.asRead] closing
  | .object entries closing => .object (entries.map Entry.asRead) closing
  | node => node

/-- The value of an attribute as it is read back. -/
def Expr.asRead (e : Expr) : Expr :=
  .mk (.written (e.layout.before.getD [' ']) (e.layout.after.getD [])) e.node.asRead

/-- The layout of a structure as it is read back. -/
def Layout.asRead (layout : Layout) : Layout :=
  .written (layout.before.getD []) (layout.after.getD [])

mutual

/-- A structure as it is read back. -/
def Structure.asRead : Structure → Structure
  | .attr layout key gap value => .attr layout.asRead key (some (gap.getD [' '])) value.asRead
  | .block layout word gap labels frame items =>
    .block layout.asRead word gap labels frame (asReadItems items)

/-- Structures as they are read back. -/
def asReadItems : List Structure → List Structure
  | [] => []
  | s :: rest => s.asRead :: asReadItems rest

end

/-- Structures are read back one by one. -/
theorem asReadItems_eq (items : List Structure) :
    asReadItems items = items.map Structure.asRead := by
  induction items with
  | nil => rfl
  | cons s rest ih => rw [asReadItems, ih, List.map_cons]

theorem layout_asRead (s : Structure) : s.asRead.layout = s.layout.asRead := by
  cases s <;> rfl

/-! ### Headers of blocks -/

namespace Reader

/-- What stands in front of the opening brace of a block. -/
def header : Scan (Chars × Chars × List Label) := do
  let word ← identifier
  let gap ← Blank.inline
  let labels ← Scan.many label
  pure (word, gap, labels)

/-- What stands in the braces of a block. -/
def blockTail (inner : Scan Structure) (word gap : Chars) (labels : List Label) :
    Scan Structure := do
  let _ ← exactly ['{']
  let body ← linesBody inner <|> rowBody
  let _ ← exactly ['}']
  pure (.block {} word gap labels body.frame body.items)

/-- A block is its head and what is behind it. -/
theorem block_eq (inner : Scan Structure) :
    block inner = header >>= fun x => blockTail inner x.1 x.2.1 x.2.2 := by
  funext cs
  rw [bind_apply, header, bind_apply, block, bind_apply]
  cases identifier cs with
  | none => rfl
  | some x =>
    simp only [Option.bind_some, bind_apply]
    cases Blank.inline x.2 with
    | none => rfl
    | some y =>
      simp only [Option.bind_some]
      cases Scan.many label y.2 <;> rfl

/-- The text of the labels of a block. -/
abbrev labelsChars (labels : List Label) : Chars :=
  (labels.map Label.chars).flatten

/-- An opening brace. -/
def Braced (t : Chars) : Prop :=
  ∃ u, t = '{' :: u

/-- The head of a block that is read as it is. -/
abbrev Heads (word gap : Chars) (labels : List Label) : Prop :=
  header.Takes (word ++ gap ++ labelsChars labels) (word, gap, labels) Braced

/-- The gauge of heads of blocks. -/
def headerGauge : Gauge (Chars × Chars × List Label) :=
  ⟨fun x => weight x.1 + weight x.2.1 + weight (labelsChars x.2.2), fun _ => True⟩

/-- Behind the word of a block and the gap stands a label or the brace. -/
theorem head_of_labels {t r : Chars} {labels : List Label}
    (run : Scan.many label t = some (labels, r)) (brace : Braced r) :
    ∃ c u, t = c :: u ∧ (c = '"' ∨ isWordStart c = true ∨ c = '{') := by
  cases many_iff_chain.mp run with
  | nil =>
    obtain ⟨u, same⟩ := brace
    exact ⟨'{', u, same, .inr (.inr rfl)⟩
  | cons taken =>
    obtain ⟨c, t, ok, same⟩ := leads_label _ _ taken
    simp only [Bool.or_eq_true, beq_iff_eq] at ok
    exact ⟨c, t, same, ok.imp id .inl⟩

theorem soft_of_labelHead {c : Char} (h : c = '"' ∨ isWordStart c = true ∨ c = '{') :
    Blank.soft false c = false ∧ c ≠ '=' := by
  rcases h with rfl | start | rfl
  · decide
  · refine ⟨hard_of_isWordStart start [] c rfl, ?_⟩
    rintro rfl
    exact absurd start (by decide)
  · decide

/-- The head of a block is read again in front of its brace. -/
theorem replays_header (n : Nat) :
    Replays n 0 True headerGauge (fun r r' => Braced r ∧ Braced r') header := by
  refine Replays.bind (replays_word n) (fun word => Replays.bind (Blank.replays_gap n false)
    (fun gap => ?_) ?_) ?_
  · have labels : Replays n 0 True (Gauge.list Label.gauge) (fun r r' => Braced r ∧ Braced r')
        (Scan.many label) :=
      (replays_labels n).mono (fun r r' both => by
        obtain ⟨⟨u, rfl⟩, u', rfl⟩ := both
        exact ⟨u, u', rfl, rfl⟩) (Nat.le_refl n)
    refine labels.bind_pure (fun labels => ?_) fun labels _ _ =>
      ⟨⟨⟨trivial, trivial⟩, trivial⟩, fun _ _ => trivial⟩
    simp only [headerGauge, weight_labels, Gauge.list, Label.gauge, Gauge.text]
    omega
  · -- The blank space ends at the first label, or at the brace if there is none.
    intro gap x w rest rest' run run' both
    obtain ⟨labels, t, many, last⟩ := bind_eq_some_iff.mp run
    obtain ⟨labels', t', many', last'⟩ := bind_eq_some_iff.mp run'
    cases last
    cases last'
    obtain ⟨c, u, same, kind⟩ := head_of_labels many both.1
    obtain ⟨c', u', same', kind'⟩ := head_of_labels many' both.2
    rw [same, same']
    exact near_of_hard (soft_of_labelHead kind).1 (soft_of_labelHead kind').1
  · intro word x w rest rest' run _ both
    cases w with
    | cons c w => exact .inl rfl
    | nil =>
      obtain ⟨⟨u, rfl⟩, u', rfl⟩ := both
      exact .inl rfl

/-- A structure is no attribute if it is a block. -/
theorem assignment_eq_none {word gap : Chars} {labels : List Label} (heads : Heads word gap labels)
    {t : Chars} (brace : Braced t) :
    assignment (word ++ gap ++ labelsChars labels ++ t) = none := by
  obtain ⟨word', u, first, more⟩ := bind_eq_some_iff.mp (heads t brace)
  obtain ⟨gap', v, second, more⟩ := bind_eq_some_iff.mp more
  obtain ⟨labels', v', third, last⟩ := bind_eq_some_iff.mp more
  cases last
  rw [assignment, bind_of_eq_some first, bind_of_eq_some second]
  obtain ⟨c, x, same, kind⟩ := head_of_labels third brace
  refine exactly_bind_eq_none fun equals => ?_
  rw [same] at equals
  exact (soft_of_labelHead kind).2 (Option.some.inj equals)

end Reader

/-! ### Readable structures -/

/-- A value whose pieces are read wherever they stand. -/
structure Expr.Readable (e : Expr) : Prop where
  before : Blank.Fills false (e.layout.before.getD [' '])
  after : e.layout.after.getD [] = []
  node : e.node.Reads e.node.asRead

/-- A structure whose layout is read on a line of its own. -/
structure Structure.Placed (s : Structure) : Prop where
  before : Blank.Fills true (s.layout.before.getD [])
  after : Trails (s.layout.after.getD [])

/-- A structure whose pieces are read wherever they stand, apart from its layout. -/
inductive Structure.Readable : Structure → Prop
  | attr {layout : Layout} {key : Chars} {gap : Option Chars} {value : Expr} (named : Named key)
      (filled : Blank.Fills false (gap.getD [' '])) (readable : value.Readable) :
      Readable (.attr layout key gap value)
  | lines {layout : Layout} {word gap opening closing : Chars} {labels : List Label}
      {items : List Structure} (heads : Heads word gap labels) (opened : Trails opening)
      (closed : Blank.Fills true closing) (distinct : distinctKeys items = true)
      (placed : ∀ s ∈ items, s.Placed) (readable : ∀ s ∈ items, Readable s) :
      Readable (.block layout word gap labels ⟨opening, closing, false, true⟩ items)
  | row {layout inner : Layout} {word gap key : Chars} {labels : List Label} {g : Option Chars}
      {value : Expr} (heads : Heads word gap labels)
      (before : Blank.Fills false (inner.before.getD []))
      (after : Blank.Fills false (inner.after.getD []))
      (readable : Readable (.attr inner key g value)) :
      Readable (.block layout word gap labels ⟨[], [], true, true⟩ [.attr inner key g value])
  | empty {layout : Layout} {word gap closing : Chars} {labels : List Label}
      (heads : Heads word gap labels) (closed : Blank.Fills false closing) :
      Readable (.block layout word gap labels ⟨[], closing, true, true⟩ [])

namespace Reader

/-- A structure begins with a name. -/
theorem leads_item : Leads isWordStart item := by
  rw [item_eq]
  exact leads_identifier.bind.orElse leads_identifier.bind

theorem Heads.head {word gap : Chars} {labels : List Label} (heads : Heads word gap labels) :
    ∃ c w, word = c :: w ∧ isWordStart c = true := by
  obtain ⟨word', u, first, more⟩ := bind_eq_some_iff.mp (heads ['{'] ⟨[], rfl⟩)
  obtain ⟨gap', v, -, more⟩ := bind_eq_some_iff.mp more
  obtain ⟨labels', v', -, last⟩ := bind_eq_some_iff.mp more
  cases last
  exact (named_of_identifier first).head

end Reader

namespace Structure

/-- A readable structure begins with a word. -/
theorem Readable.head {s : Structure} (h : s.Readable) :
    ∃ c t, s.bareChars = c :: t ∧ isWordStart c = true := by
  cases h with
  | attr named =>
    obtain ⟨c, w, rfl, start⟩ := named.head
    exact ⟨c, _, rfl, start⟩
  | lines heads =>
    obtain ⟨c, w, rfl, start⟩ := heads.head
    exact ⟨c, _, rfl, start⟩
  | row heads =>
    obtain ⟨c, w, rfl, start⟩ := heads.head
    exact ⟨c, _, rfl, start⟩
  | empty heads =>
    obtain ⟨c, w, rfl, start⟩ := heads.head
    exact ⟨c, _, rfl, start⟩

/-- A readable structure begins no blank space. -/
theorem Readable.hard {s : Structure} (h : s.Readable) (newlines : Bool) (t : Chars) :
    Blank.Hard newlines (s.bareChars ++ t) := by
  obtain ⟨c, u, same, start⟩ := h.head
  rw [same]
  exact hard_of_isWordStart start (u ++ t)

/-- Nothing goes on with a line. -/
theorem Readable.calm {s : Structure} (h : s.Readable) {b : Chars} (fills : Blank.Fills true b)
    (t : Chars) : Calm (Blank.skip true (b ++ (s.bareChars ++ t))) := by
  rw [Blank.skip_eq_of_gap (fills _ (h.hard true t))]
  obtain ⟨c, u, same, start⟩ := h.head
  rw [same]
  exact calm_of_isWordStart start (u ++ t)

end Structure

theorem chars_blank (e : Expr) (h : e.layout.after.getD [] = []) :
    e.chars [' '] = e.layout.before.getD [' '] ++ e.node.chars := by
  obtain ⟨layout, node⟩ := e
  simp [Expr.chars, Layout.around, Expr.layout, Expr.node] at h ⊢
  exact h

namespace Reader

/-- What is read as a value in front of the end of an expression. -/
theorem takes_value {e : Expr} (h : e.Readable) :
    (between Blank.inline node (pure [])).Takes (e.chars [' '])
      (.mk (.written (e.layout.before.getD [' ']) []) e.node.asRead) Stops := by
  rw [chars_blank e h.after]
  have inner : (nested false >>= fun node => (pure [] : Scan Chars) >>= fun right =>
      pure (Expr.mk (.written (e.layout.before.getD [' ']) right) node)).Takes e.node.chars
        (.mk (.written (e.layout.before.getD [' ']) []) e.node.asRead) Stops :=
    h.node.bind_pure
  intro rest stops
  have read := h.node rest stops
  have gap := h.before (e.node.chars ++ rest) (hard_of_nested read)
  rw [List.append_assoc, between, bind_of_eq_some (show Blank.inline _ = _ from gap)]
  exact inner rest stops

/-- A readable attribute is taken where its value stops. -/
theorem takes_assignment {layout : Layout} {key : Chars} {gap : Option Chars} {value : Expr}
    (named : Named key) (filled : Blank.Fills false (gap.getD [' '])) (readable : value.Readable) :
    assignment.Takes (key ++ gap.getD [' '] ++ '=' :: value.chars [' '])
      ((Structure.attr layout key gap value).asRead.withLayout {}) Stops := by
  have shape : (Structure.attr layout key gap value).asRead.withLayout {} =
      .attr {} key (some (gap.getD [' ']))
        (.mk (.written (value.layout.before.getD [' ']) []) value.node.asRead) := by
    rw [Structure.asRead, Expr.asRead, readable.after]
    rfl
  rw [shape, List.append_assoc]
  have equals : ∀ t, Blank.Hard false ('=' :: t) ∧ EndsName ('=' :: t) := by
    refine fun t => ⟨fun c first => ?_, fun c first => ?_⟩ <;>
    · obtain rfl := Option.some.inj first
      decide
  refine named.bind (f := fun word => _) (Takes.bind (D := Blank.Hard false) filled
    (Takes.exactly_bind ((takes_value readable).bind_pure
      (g := fun e => Structure.attr {} key (some (gap.getD [' '])) e))) fun rest _ => (equals _).1)
      fun rest _ => ?_
  rw [List.append_assoc]
  exact endsName_of_fills filled (equals _).1 (equals _).2

/-- What is in braces on one line is not read as lines. -/
theorem linesBody_eq_none {inner : Scan Structure} {cs b t : Chars} {c : Char}
    (gap : Blank.gap false cs = some (b, c :: t)) (other : isWordStart c = true ∨ c = '}') :
    linesBody inner cs = none := by
  have plain : c ≠ '#' ∧ c ≠ '/' ∧ c ≠ '\n' ∧ c ≠ '\r' := by
    refine ⟨?_, ?_, ?_, ?_⟩ <;>
    · rintro rfl
      revert other
      decide
  have noComment : Scan.optional Blank.lineComment (c :: t) = some (none, c :: t) :=
    optional_of_eq_none (Blank.lineComment_eq_none plain.1 plain.2.1)
  have rest : lineRest cs = some (b, c :: t) :=
    lineRest_eq_some_iff.mpr ⟨b, c :: t, none, gap, noComment, (List.append_nil b).symm⟩
  rw [linesBody, bind_of_eq_some rest]
  exact bind_of_eq_none (Blank.lineEnd_eq_none plain.2.2.1 plain.2.2.2)

theorem leads_assignment : Leads isWordStart assignment :=
  leads_identifier.bind

/-- A closing brace. -/
def Closed (t : Chars) : Prop :=
  ∃ u, t = '}' :: u

theorem Closed.hard {t : Chars} (h : Closed t) (newlines : Bool) : Blank.Hard newlines t := by
  obtain ⟨u, rfl⟩ := h
  intro c first
  obtain rfl := Option.some.inj first
  cases newlines <;> decide

/-- The body of a block on one line. -/
theorem takes_row {layout : Layout} {key : Chars} {g : Option Chars} {value : Expr}
    (before : Blank.Fills false (layout.before.getD []))
    (after : Blank.Fills false (layout.after.getD []))
    (readable : (Structure.attr layout key g value).Readable) :
    rowBody.Takes (Structure.attr layout key g value).chars
      ⟨⟨[], [], true, true⟩, [(Structure.attr layout key g value).asRead]⟩ Closed := by
  have hard := readable.hard false
  obtain ⟨named, filled, valued⟩ := readable
  have tail : (Blank.inline >>= fun after => pure (⟨⟨[], [], true, true⟩,
      [((Structure.attr layout key g value).asRead.withLayout {}).withLayout
        (.written (layout.before.getD []) after)]⟩ : Body)).Takes (layout.after.getD [])
        ⟨⟨[], [], true, true⟩, [(Structure.attr layout key g value).asRead]⟩ Closed :=
    Takes.bind_pure (p := Blank.inline) (g := fun after => (⟨⟨[], [], true, true⟩,
      [((Structure.attr layout key g value).asRead.withLayout {}).withLayout
        (.written (layout.before.getD []) after)]⟩ : Body)) (after.mono fun _ closed =>
          closed.hard false)
  rw [Structure.chars_eq, Layout.around, List.append_assoc]
  refine Takes.orElse_left (Takes.bind (D := Blank.Hard false) before
    (Takes.bind (@takes_assignment layout _ _ _ named filled valued) tail fun rest closed => ?_)
      fun rest _ => ?_)
  · obtain ⟨u, rfl⟩ := closed
    exact stops_of_mark after (by decide) u
  · rw [List.append_assoc]
    exact hard _

/-- The body of an empty block on one line. -/
theorem takes_emptyRow {closing : Chars} (closed : Blank.Fills false closing) :
    rowBody.Takes closing ⟨⟨[], closing, true, true⟩, []⟩ Closed := by
  refine Takes.orElse_right (Takes.bind_pure (p := Blank.inline)
    (g := fun closing => (⟨⟨[], closing, true, true⟩, []⟩ : Body)) (closed.mono fun _ h =>
      h.hard false)) ?_
  intro rest brace
  have gap : Blank.inline (closing ++ rest) = some (closing, rest) := closed rest (brace.hard false)
  obtain ⟨u, rfl⟩ := brace
  rw [bind_of_eq_some gap]
  exact bind_of_eq_none (leads_assignment.eq_none (by decide))

/-- A structure with what is around it on its line. -/
def lineFront : Scan Structure := do
  let before ← Blank.across
  let item ← item
  let after ← lineRest
  pure (item.withLayout (.written before after))

/-- A line is its structure with what is around it, and the line end. -/
theorem line_item_eq : line item = (do
    let s ← lineFront
    let ends ← lineStop
    pure (s, ends)) := by
  funext cs
  rw [line_eq, lineFront, bind_apply, bind_apply, bind_apply]
  cases Blank.across cs with
  | none => rfl
  | some x =>
    simp only [Option.bind_some, bind_apply]
    cases item x.2 with
    | none => rfl
    | some y =>
      simp only [Option.bind_some]
      cases lineRest y.2 <;> rfl

/-- What may stand behind a structure: the value of an attribute has to stop there, and a block ends
with its brace. -/
def Behind : Structure → Chars → Prop
  | .attr .. => Stops
  | .block .. => fun _ => True

/-- What stops expressions may stand behind a structure. -/
theorem behind_of_stops {s : Structure} {rest : Chars} (stops : Stops rest) : Behind s rest := by
  cases s with
  | attr => exact stops
  | block => exact trivial

/-- What is read as an item is read with its layout. -/
theorem takes_lineFront {s : Structure} (placed : s.Placed) (readable : s.Readable)
    (taken : item.Takes s.bareChars (s.asRead.withLayout {}) (Behind s)) :
    lineFront.Takes s.chars s.asRead LineEnds := by
  have back : (lineRest >>= fun after => pure ((s.asRead.withLayout {}).withLayout
      (.written (s.layout.before.getD []) after))).Takes
        (s.layout.after.getD []) s.asRead LineEnds := by
    have same : (s.asRead.withLayout {}).withLayout
        (.written (s.layout.before.getD []) (s.layout.after.getD [])) = s.asRead := by
      cases s <;> rfl
    have tail := Takes.bind_pure (p := lineRest)
      (g := fun after =>
        (s.asRead.withLayout {}).withLayout (.written (s.layout.before.getD []) after))
      (placed.after.mono fun _ ends => LineEnds.tail ends)
    rwa [same] at tail
  rw [Structure.chars_eq, Layout.around, List.append_assoc]
  refine Takes.bind (D := Blank.Hard true) placed.before
    (taken.bind back fun rest ends => behind_of_stops (stops_of_trails placed.after ends))
    fun rest _ => ?_
  rw [List.append_assoc]
  exact readable.hard true _

/-- A rest in which no line follows. -/
structure LinesEnd (t : Chars) : Prop where
  stops : line item t = none
  calm : Calm (Blank.skip true t)

/-- A line is taken if its structure is and the rest goes on with no expression. -/
theorem takes_line {s : Structure} (front : lineFront.Takes s.chars s.asRead LineEnds) :
    (line item).Takes (s.chars ++ ['\n']) (s.asRead, true) fun t => Calm (Blank.skip true t) := by
  rw [line_item_eq]
  have stop : lineStop.Takes ['\n'] true fun t => Calm (Blank.skip true t) :=
    fun rest _ => lineStop_eq_some_iff.mpr (.inl ⟨rfl, ['\n'], .inl rfl, rfl⟩)
  exact front.bind stop.bind_pure fun rest calm => .inr ⟨rest, rfl, calm⟩

/-- Lines are read as they are printed. -/
theorem takes_manyLines {items : List Structure} (placed : ∀ s ∈ items, s.Placed)
    (readable : ∀ s ∈ items, s.Readable)
    (taken : ∀ s ∈ items, item.Takes s.bareChars (s.asRead.withLayout {}) (Behind s)) :
    (Scan.many (line item)).Takes (linesChars true items) (items.map fun s => (s.asRead, true))
      LinesEnd := by
  induction items with
  | nil => exact Takes.many_nil fun rest ends => ends.stops
  | cons s rest ih =>
    have here := List.mem_cons_self (a := s) (l := rest)
    have more := fun x (member : x ∈ rest) => List.mem_cons_of_mem s member
    have tail := ih (fun x m => placed x (more x m)) (fun x m => readable x (more x m))
      fun x m => taken x (more x m)
    have front := takes_lineFront (placed s here) (readable s here) (taken s here)
    have shape : linesChars true (s :: rest) = (s.chars ++ ['\n']) ++ linesChars true rest := by
      rw [linesChars, if_neg (by simp)]
    rw [shape]
    refine Takes.many_cons (takes_line front) (by simp) tail fun t ends => ?_
    -- the next line begins with a word
    cases rest with
    | nil => exact ends.calm
    | cons s' rest =>
      have next := more s' List.mem_cons_self
      have split : linesChars true (s' :: rest) ++ t = s'.layout.before.getD [] ++
          (s'.bareChars ++ (s'.layout.after.getD [] ++ ('\n' :: (linesChars true rest ++ t)))) := by
        rw [linesChars, if_neg (by simp), Structure.chars_eq, Layout.around]
        simp
      rw [split]
      exact (readable s' next).calm (placed s' next).before _

/-- The lines of a block end at its brace. -/
theorem linesEnd_of_closed {closing : Chars} (closed : Blank.Fills true closing) {t : Chars}
    (brace : Closed t) : LinesEnd (closing ++ t) := by
  have gap : Blank.across (closing ++ t) = some (closing, t) := closed t (brace.hard true)
  obtain ⟨u, rfl⟩ := brace
  refine ⟨?_, ?_⟩
  · rw [line_eq, bind_of_eq_some gap]
    exact bind_of_eq_none (leads_item.eq_none (by decide))
  · rw [Blank.skip_eq_of_across gap]
    exact (firm_of_mark (by decide) u).calm

/-- The keys of the attributes among some structures. -/
def attributeKeys (items : List Structure) : List Chars :=
  items.filterMap fun
    | .attr _ key _ _ => some key
    | .block .. => none

theorem distinctKeys_iff (items : List Structure) :
    distinctKeys items = true ↔
      (attributeKeys items).eraseDups.length = (attributeKeys items).length := by
  rw [distinctKeys, beq_iff_eq]
  rfl

theorem attributeKeys_asRead (items : List Structure) :
    attributeKeys (items.map Structure.asRead) = attributeKeys items := by
  induction items with
  | nil => rfl
  | cons s rest ih =>
    simp only [attributeKeys] at ih ⊢
    cases s <;> simp [Structure.asRead, ih]

/-- Lines are taken if all of them are and no key is there twice. -/
theorem takes_lines {items : List Structure} (distinct : distinctKeys items = true)
    (many : (Scan.many (line item)).Takes (linesChars true items)
      (items.map fun s => (s.asRead, true)) LinesEnd) :
    (lines item).Takes (linesChars true items) (items.map Structure.asRead, true) LinesEnd := by
  have names : (items.map fun s => (s.asRead, true)).map (·.1) = items.map Structure.asRead := by
    simp
  have ends : (items.map fun s => (s.asRead, true)).all (·.2) = true := by
    simp
  have distinct' : distinctKeys (items.map Structure.asRead) = true := by
    rw [distinctKeys_iff, attributeKeys_asRead, ← distinctKeys_iff]
    exact distinct
  intro rest stop
  rw [lines, bind_of_eq_some (many rest stop)]
  rw [names, ends, bind_apply, guard_apply, if_pos distinct']
  rfl

/-- The body of a block on lines of its own. -/
theorem takes_linesBody {opening closing : Chars} {items : List Structure} (opened : Trails opening)
    (closed : Blank.Fills true closing)
    (taken :
      (lines item).Takes (linesChars true items) (items.map Structure.asRead, true) LinesEnd) :
    (linesBody item).Takes (opening ++ '\n' :: (linesChars true items ++ closing))
      ⟨⟨opening, closing, false, true⟩, items.map Structure.asRead⟩ Closed := by
  have lineEnd : Blank.lineEnd.Takes ['\n'] ['\n'] fun _ => True :=
    fun rest _ => Blank.lineEnd_eq_some_iff.mpr ⟨.inl rfl, rfl⟩
  have last : (Blank.across >>= fun closing => pure (⟨⟨opening, closing, false, true⟩,
      items.map Structure.asRead⟩ : Body)).Takes closing
        ⟨⟨opening, closing, false, true⟩, items.map Structure.asRead⟩ Closed :=
    Takes.bind_pure (p := Blank.across) (g := fun closing => (⟨⟨opening, closing, false, true⟩,
      items.map Structure.asRead⟩ : Body)) (closed.mono fun _ brace => brace.hard true)
  have inside := taken.bind (f := fun x => Blank.across >>= fun closing =>
      pure (⟨⟨opening, closing, false, x.2⟩, x.1⟩ : Body)) last
        fun rest brace => linesEnd_of_closed closed brace
  refine Takes.bind (D := LineTail) opened
    (lineEnd.bind (v := linesChars true items ++ closing) inside
    fun _ _ => trivial) fun rest _ => ?_
  exact .inr ⟨linesChars true items ++ closing ++ rest, by simp⟩

/-- What is behind the head of a block is taken if its body is. -/
theorem takes_blockTail {word gap inner : Chars} {labels : List Label} {body : Body}
    (taken : (linesBody item <|> rowBody).Takes inner body Closed) :
    (blockTail item word gap labels).Takes ('{' :: (inner ++ ['}']))
      (.block {} word gap labels body.frame body.items) fun _ => True := by
  have close : (exactly ['}'] >>= fun _ =>
      pure (Structure.block {} word gap labels body.frame body.items)).Takes ['}']
        (.block {} word gap labels body.frame body.items) fun _ => True :=
    Takes.bind_pure (g := fun _ => Structure.block {} word gap labels body.frame body.items)
      (Takes.exactly ['}'])
  exact Takes.exactly_bind (taken.bind close fun rest _ => ⟨rest, rfl⟩)

/-- A block is taken if its body is. -/
theorem takes_block {word gap inner : Chars} {labels : List Label} {body : Body}
    (heads : Heads word gap labels) (taken : (linesBody item <|> rowBody).Takes inner body Closed) :
    item.Takes (word ++ gap ++ labelsChars labels ++ '{' :: (inner ++ ['}']))
      (.block {} word gap labels body.frame body.items) fun _ => True := by
  rw [item_eq]
  refine Takes.orElse_right ?_ fun rest _ => ?_
  · rw [block_eq]
    exact heads.bind (f := fun x => blockTail item x.1 x.2.1 x.2.2) (takes_blockTail taken)
      fun rest _ => ⟨_, rfl⟩
  · rw [List.append_assoc]
    exact assignment_eq_none heads ⟨inner ++ ['}'] ++ rest, rfl⟩

theorem takes_block_of_body {layout : Layout} {word gap : Chars} {labels : List Label}
    {frame : Frame} {items : List Structure} (heads : Heads word gap labels)
    (taken : (linesBody item <|> rowBody).Takes (Body.innerChars ⟨frame, items⟩)
      ⟨frame, items.map Structure.asRead⟩ Closed) :
    item.Takes (Structure.block layout word gap labels frame items).bareChars
      ((Structure.block layout word gap labels frame items).asRead.withLayout {})
      fun _ => True := by
  rw [Structure.bareChars, Structure.asRead, asReadItems_eq]
  exact takes_block heads taken

/-- A readable structure is read as it is printed. -/
theorem takes_item {s : Structure} (readable : s.Readable) :
    item.Takes s.bareChars (s.asRead.withLayout {}) (Behind s) := by
  induction readable with
  | attr named filled readable =>
    rw [item_eq]
    exact Takes.orElse_left (takes_assignment named filled readable)
  | @lines layout word gap opening closing labels items heads opened closed distinct placed
      readable ih =>
    have text : Body.innerChars ⟨⟨opening, closing, false, true⟩, items⟩ =
        opening ++ '\n' :: (linesChars true items ++ closing) := by
      simp [Body.innerChars]
    refine takes_block_of_body heads (Takes.orElse_left ?_)
    rw [text]
    exact takes_linesBody opened closed (takes_lines distinct (takes_manyLines placed readable ih))
  | @row layout inner word gap key labels g value heads before after readable =>
    have text : Body.innerChars ⟨⟨[], [], true, true⟩, [.attr inner key g value]⟩ =
        (Structure.attr inner key g value).chars := by
      simp [Body.innerChars, rowChars]
    refine takes_block_of_body heads ?_
    rw [text]
    refine Takes.orElse_right (takes_row before after readable) fun rest _ => ?_
    obtain ⟨c, t, same, start⟩ := readable.head
    have gap := before _ (readable.hard false (inner.after.getD [] ++ rest))
    rw [same] at gap
    rw [Structure.chars_eq, Layout.around, List.append_assoc, List.append_assoc, same]
    exact linesBody_eq_none gap (.inl start)
  | @empty layout word gap closing labels heads closed =>
    have text : Body.innerChars ⟨⟨[], closing, true, true⟩, []⟩ = closing := rfl
    refine takes_block_of_body heads ?_
    rw [text]
    refine Takes.orElse_right (takes_emptyRow closed) fun rest brace => ?_
    have gap := closed rest (brace.hard false)
    obtain ⟨u, rfl⟩ := brace
    exact linesBody_eq_none gap (.inr rfl)

end Reader

/-- A document whose pieces are read wherever they stand. -/
structure Body.Readable (body : Body) : Prop where
  opening : body.frame.opening = []
  oneLine : body.frame.oneLine = false
  distinct : distinctKeys body.items = true
  placed : ∀ s ∈ body.items, s.Placed
  readable : ∀ s ∈ body.items, s.Readable
  /-- If the last line has no end, nothing stands behind it. -/
  unended : body.frame.lastLineEnds = false → body.frame.closing = [] ∧ body.items ≠ []
  closing : Blank.across body.frame.closing = some (body.frame.closing, [])

/-- A body as it is read back. -/
def Body.asRead (body : Body) : Body :=
  { body with items := body.items.map Structure.asRead }

namespace Reader

/-- Lines are taken up to the last one, which has no end. -/
theorem manyLines_unended {items : List Structure} (nonempty : items ≠ [])
    (placed : ∀ s ∈ items, s.Placed) (readable : ∀ s ∈ items, s.Readable) :
    ∃ found, Scan.many (line item) (linesChars false items) = some (found, []) ∧
      found.map (·.1) = items.map Structure.asRead ∧ found.all (·.2) = false := by
  induction items with
  | nil => exact absurd rfl nonempty
  | cons s rest ih =>
    have here := List.mem_cons_self (a := s) (l := rest)
    have front := takes_lineFront (placed s here) (readable s here) (takes_item (readable s here))
    have length : 0 < s.chars.length := by
      obtain ⟨c, t, same, -⟩ := (readable s here).head
      rw [Structure.chars_eq, Layout.around, same]
      simp only [List.length_append, List.length_cons]
      omega
    -- The last line has no end, and every other one has.
    cases rest with
    | nil =>
      have first : line item s.chars = some ((s.asRead, false), []) := by
        have taken := front [] (.inl rfl)
        rw [List.append_nil] at taken
        rw [line_item_eq, bind_of_eq_some taken]
        rfl
      refine ⟨[(s.asRead, false)], ?_, rfl, rfl⟩
      have shape : linesChars false [s] = s.chars := by simp [linesChars]
      rw [shape]
      refine many_eq_some_of_chain (.cons first length (.nil fun a r taken => ?_))
      rw [line_nil item_nil] at taken
      cases taken
    | cons s' rest =>
      have next := List.mem_cons_of_mem s (List.mem_cons_self (a := s') (l := rest))
      obtain ⟨found, run, names, ends⟩ := ih (List.cons_ne_nil s' rest)
        (fun x m => placed x (List.mem_cons_of_mem s m)) fun x m =>
          readable x (List.mem_cons_of_mem s m)
      have shape : linesChars false (s :: s' :: rest) =
          s.chars ++ ['\n'] ++ linesChars false (s' :: rest) := by
        rw [linesChars, if_neg (by simp)]
      have calm : Calm (Blank.skip true (linesChars false (s' :: rest))) := by
        rw [linesChars, Structure.chars_eq, Layout.around, List.append_assoc, List.append_assoc,
          List.append_assoc]
        exact (readable s' next).calm (placed s' next).before _
      have first := takes_line front _ calm
      refine ⟨(s.asRead, true) :: found, ?_, by rw [List.map_cons, List.map_cons, names],
        by simpa using ends⟩
      rw [shape]
      refine many_eq_some_of_chain (.cons first ?_ (many_iff_chain.mp run))
      simp only [List.length_append]
      omega

/-- Lines of which the last one has no end are read as they are printed. -/
theorem lines_unended {items : List Structure} (nonempty : items ≠ [])
    (distinct : distinctKeys items = true) (placed : ∀ s ∈ items, s.Placed)
    (readable : ∀ s ∈ items, s.Readable) :
    lines item (linesChars false items) = some ((items.map Structure.asRead, false), []) := by
  obtain ⟨found, run, names, ends⟩ := manyLines_unended nonempty placed readable
  have distinct' : distinctKeys (items.map Structure.asRead) = true := by
    rw [distinctKeys_iff, attributeKeys_asRead, ← distinctKeys_iff]
    exact distinct
  rw [lines, bind_of_eq_some run]
  rw [names, ends, bind_apply, guard_apply, if_pos distinct']
  rfl

/-- A readable document is read as it is printed. -/
theorem document_of_readable {body : Body} (h : body.Readable) :
    document body.chars = some (body.asRead, []) := by
  obtain ⟨⟨opening, closing, oneLine, ends⟩, items⟩ := body
  obtain ⟨rfl, rfl, distinct, placed, readable, unended, closed⟩ := h
  simp only at distinct placed readable unended closed
  have found : lines item (linesChars ends items ++ closing) =
      some ((items.map Structure.asRead, ends), closing) := by
    cases ends with
    | true =>
      refine takes_lines distinct
        (takes_manyLines placed readable fun s m => takes_item (readable s m))
        closing ⟨?_, by rw [Blank.skip_eq_of_across closed]; exact calm_nil⟩
      rw [line_eq, bind_of_eq_some closed, bind_of_eq_none item_nil]
    | false =>
      obtain ⟨rfl, nonempty⟩ := unended rfl
      rw [List.append_nil]
      exact lines_unended nonempty distinct placed readable
  rw [document_eq, Body.chars, bind_of_eq_some found, bind_of_eq_some closed]
  rfl

end Reader

end TerraformPins.Hcl
