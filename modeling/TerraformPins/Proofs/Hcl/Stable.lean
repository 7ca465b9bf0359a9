import TerraformPins.Proofs.Hcl.Braces

/-!
# Documents that are read as they are printed

If a document is read from its own text, each of its structures was read from its own text, and so
was each piece of a structure. Therefore, if no heredoc is without lines, the document is readable:
it consists of pieces that are read wherever they stand.

## Main results

* `Structure.readable_of_item` — a structure that was read from its own text
* `Body.readable_of_document` — a document that was read from its own text
-/

namespace TerraformPins.Hcl

open Scan Grammar Reader

namespace Reader

/-- What is read has no layout of its own yet. -/
theorem layout_of_item : item.Yields fun s => s.layout = {} := by
  rw [item_eq]
  exact .orElse
    (.bind fun _ => .bind fun _ => .bind fun _ => .bind fun _ => .pure rfl)
    (.bind fun _ => .bind fun _ => .bind fun _ =>
      .bind fun _ => .bind fun _ => .bind fun _ => .pure rfl)

theorem assignment_ne_block : assignment.Yields fun s =>
    ∀ layout word gap labels frame items, s ≠ .block layout word gap labels frame items :=
  .bind fun _ => .bind fun _ => .bind fun _ => .bind fun _ => .pure nofun

theorem block_ne_attr (inner : Scan Structure) : (block inner).Yields fun s =>
    ∀ layout key gap value, s ≠ .attr layout key gap value :=
  .bind fun _ => .bind fun _ => .bind fun _ => .bind fun _ => .bind fun _ =>
    .bind fun _ => .pure nofun

theorem withLayout_of_item {cs r : Chars} {s : Structure} (run : item cs = some (s, r))
    (layout : Layout) : (s.withLayout layout).withLayout {} = s := by
  have none := layout_of_item _ _ _ run
  cases s <;> simp_all [Structure.withLayout, Structure.layout]

/-- An attribute that was read from its own text. -/
theorem readable_of_assignment {s : Structure} {t : Chars}
    (run : assignment (s.bareChars ++ t) = some (s.withLayout {}, t)) (whole : s.Whole) :
    s.Readable := by
  obtain ⟨word, r, first, more₁⟩ := bind_eq_some_iff.mp run
  obtain ⟨gap, r', second, more₂⟩ := bind_eq_some_iff.mp more₁
  obtain ⟨v, rfl, more₃⟩ := exactly_bind_eq_some_iff.mp more₂
  obtain ⟨value, r'', third, last⟩ := bind_eq_some_iff.mp more₃
  obtain ⟨b, u, fourth, inner⟩ := bind_eq_some_iff.mp third
  obtain ⟨node, w, read, last'⟩ := bind_eq_some_iff.mp inner
  cases last'
  cases s with
  | block => cases last
  | attr layout key g value =>
    cases last
    -- the text is that of the pieces
    have split := identifier_split first
    rw [Blank.inline_split second, Blank.inline_split fourth] at split
    simp only [Structure.bareChars, Option.getD_some, Expr.chars, Layout.around, Layout.written,
      List.append_assoc, List.append_cancel_left_eq, List.cons_append, List.nil_append,
      List.cons.injEq, true_and] at split
    subst split
    refine .attr (named_of_identifier first)
      (Blank.fills_of_inline (show Blank.gap false r = _ from second) ?_)
      ⟨Blank.fills_of_inline (show Blank.gap false v = _ from fourth) (hard_of_nested read),
        rfl, ?_⟩
    · exact fun c first => by obtain rfl := Option.some.inj first; decide
    · show node.Reads node.asRead
      rw [Node.asRead_of_nested read]
      exact Node.reads_of_nested read whole

/-- A structure that was read from its own text, in its place on a line. -/
def OnLine (s : Structure) : Prop :=
  s.Placed ∧ ∃ t, item (s.bareChars ++ t) = some (s.withLayout {}, t)

/-- One line: the text `w` of its structure weighs at least as much as what is printed for it. If
this is `w` and a line feed or nothing is behind the line, the structure was read from its own
text. -/
theorem line_cases {cs r : Chars} {s : Structure} {ends : Bool}
    (run : line item cs = some ((s, ends), r)) :
    ∃ before w after m, cs = before ++ (w ++ (after ++ (m ++ r))) ∧
      s.chars = before ++ s.bareChars ++ after ∧ weight s.bareChars ≤ weight w ∧
      (w = s.bareChars → LineTail (m ++ r) → OnLine s) ∧
      ((ends = true ∧ (m = ['\n'] ∨ m = ['\r', '\n'])) ∨ (ends = false ∧ m = [] ∧ r = [])) := by
  rw [line_eq] at run
  obtain ⟨before, t₁, lead, run₁⟩ := bind_eq_some_iff.mp run
  obtain ⟨s, t₂, read, run₂⟩ := bind_eq_some_iff.mp run₁
  obtain ⟨after, t₃, rest, run₃⟩ := bind_eq_some_iff.mp run₂
  obtain ⟨ends, t₄, stop, last⟩ := bind_eq_some_iff.mp run₃
  cases last
  obtain ⟨w, rfl, light⟩ : ∃ w, t₁ = w ++ t₂ ∧ weight s.bareChars ≤ 0 + weight w :=
    light_item _ _ _ read
  obtain ⟨c, u, start, same⟩ := leads_item _ _ read
  have onLine (printed : w = s.bareChars) (ends : LineTail t₃) :
      OnLine (s.withLayout (.written before after)) := by
    refine ⟨⟨?_, ?_⟩, t₂, ?_⟩
    · rw [Structure.layout_withLayout]
      rw [same] at lead
      exact Blank.fills_of_across lead (hard_of_isWordStart start u)
    · rw [Structure.layout_withLayout]
      exact trails_of_lineRest rest ends
    · rw [Structure.bareChars_withLayout, withLayout_of_item read, ← printed]
      exact read
  rw [Structure.bareChars_withLayout, Blank.across_split lead, lineRest_split rest]
  rcases lineStop_eq_some_iff.mp stop with ⟨rfl, le, kind, rfl⟩ | ⟨rfl, rfl, rfl⟩
  · exact ⟨before, w, after, le, rfl, s.chars_withLayout before after, by omega, onLine,
      .inl ⟨rfl, kind⟩⟩
  · exact ⟨before, w, after, [], rfl, s.chars_withLayout before after, by omega, onLine,
      .inr ⟨rfl, rfl, rfl⟩⟩

/-- Lines whose texts are together the text that they were read from. -/
theorem onLine_of_chain {found : List (Structure × Bool)} {r : Chars}
    (chain : Chain (line item) (linesChars (found.all (·.2)) (found.map (·.1)) ++ r) found r) :
    (∀ x ∈ found, OnLine x.1) ∧ (r ≠ [] → found.all (·.2) = true) := by
  generalize text : linesChars (found.all (·.2)) (found.map (·.1)) ++ r = cs at chain
  induction chain with
  | nil => exact ⟨fun x member => absurd member List.not_mem_nil, fun _ => rfl⟩
  | @cons cs cs₁ r x more taken _ chain ih =>
    obtain ⟨s, ends⟩ := x
    obtain ⟨before, w, after, m, rfl, shape, light, onLine, kind⟩ := line_cases taken
    rcases kind with ⟨rfl, kind⟩ | ⟨rfl, rfl, rfl⟩
    · obtain ⟨w', rfl, light'⟩ := (light_line light_item).many _ _ _ (many_eq_some_of_chain chain)
      rw [← weight_linesChars item_nil chain] at light'
      have last : ¬ ((more.map (·.1)).isEmpty = true ∧ ¬ (more.all (·.2)) = true) := by
        cases more <;> simp
      simp only [List.map_cons, List.all_cons, Bool.true_and, linesChars, if_neg last, shape,
        List.append_assoc, List.append_cancel_left_eq] at text
      -- The line end parts the line from those behind it.
      have weights := congrArg weight text
      simp only [weight_append] at weights
      have lineFeed : weight m ≥ weight ['\n'] := by rcases kind with rfl | rfl <;> decide
      obtain rfl := Blank.eq_newline_of_weight kind (by omega)
      rw [← List.append_assoc, ← List.append_assoc w] at text
      obtain ⟨front, -, back⟩ := eq_of_weight_eq (c := '\n') (d := '\n') text
        (by simp only [weight_append]; omega) (by decide) (by decide)
      obtain ⟨others, ended⟩ := ih back
      refine ⟨fun x member => ?_, by simpa using ended⟩
      rcases List.mem_cons.mp member with rfl | inside
      · exact onLine (List.append_cancel_right front).symm (.inr ⟨_, rfl⟩)
      · exact others x inside
    · -- Nothing is behind the end of the text.
      cases chain with
      | cons taken =>
        rw [line_nil item_nil] at taken
        cases taken
      | nil =>
        simp only [List.map_cons, List.map_nil, List.all_cons, List.all_nil, Bool.and_true,
          linesChars, List.isEmpty_nil, Bool.false_eq_true, not_false_eq_true, and_self,
          if_true, shape, List.append_assoc, List.append_cancel_left_eq, List.append_nil] at text
        refine ⟨fun x member => ?_, fun nonempty => absurd rfl nonempty⟩
        obtain rfl := List.mem_singleton.mp member
        exact onLine (List.append_cancel_right text).symm (.inl rfl)

theorem light_header : Light 0 headerGauge.weight header :=
  Replays.light replays_header

/-- A block that was read from its own text: its head and what is in its braces were read from their
own texts, too. -/
theorem block_cases {layout : Layout} {word gap : Chars} {labels : List Label} {frame : Frame}
    {items : List Structure} {t : Chars}
    (run : block item ((Structure.block layout word gap labels frame items).bareChars ++ t) =
      some (.block {} word gap labels frame items, t)) :
    Heads word gap labels ∧
      (linesBody item <|> rowBody) (Body.innerChars ⟨frame, items⟩ ++ '}' :: t) =
      some (⟨frame, items⟩, '}' :: t) := by
  rw [block_eq] at run
  obtain ⟨⟨word₁, gap₁, labels₁⟩, r, head, more₁⟩ := bind_eq_some_iff.mp run
  obtain ⟨v, rfl, more₂⟩ := exactly_bind_eq_some_iff.mp more₁
  obtain ⟨body, r', inside, more₃⟩ := bind_eq_some_iff.mp more₂
  obtain ⟨t', rfl, last⟩ := exactly_bind_eq_some_iff.mp more₃
  cases last
  have body_light : Light 0 (fun b => weight b.innerChars) (linesBody item <|> rowBody) :=
    (light_linesBody light_item item_nil).orElse light_rowBody
  obtain ⟨u, split, lightU⟩ : ∃ u, _ = u ++ _ ∧
      weight word₁ + weight gap₁ + weight (labelsChars labels₁) ≤ 0 + weight u :=
      light_header _ _ _ head
  obtain ⟨w, rfl, lightW⟩ : ∃ w, v = w ++ _ ∧
      weight (Body.innerChars ⟨body.frame, body.items⟩) ≤ 0 + weight w := body_light _ _ _ inside
  have text : word₁ ++ gap₁ ++ labelsChars labels₁ ++ '{' ::
      (Body.innerChars ⟨body.frame, body.items⟩ ++ '}' :: t) = u ++ '{' :: (w ++ '}' :: t) := by
    simpa [Structure.bareChars] using split
  have weights := congrArg weight text
  simp only [weight_append, weight_cons] at weights
  -- Neither head nor body is printed heavier than it was, so the brace divides both texts at the
  -- same place.
  obtain ⟨rfl, -, back⟩ := eq_of_weight_eq text (by simp only [weight_append]; omega) (by decide)
    (by decide)
  obtain rfl := List.append_cancel_right back
  have head' : header (word₁ ++ gap₁ ++ labelsChars labels₁ ++
      '{' :: (Body.innerChars ⟨body.frame, body.items⟩ ++ '}' :: t)) =
        some ((word₁, gap₁, labels₁),
          '{' :: (Body.innerChars ⟨body.frame, body.items⟩ ++ '}' :: t)) := by
    rw [text]
    exact split ▸ head
  refine ⟨.of_replays replays_header head' ?_ trivial fun rest brace => ⟨⟨_, rfl⟩, brace⟩, inside⟩
  simp only [weight_append, headerGauge]
  omega

/-- The lines of a body that was read from its own text. -/
theorem linesBody_cases {frame : Frame} {items : List Structure} {t : Chars}
    (run : linesBody item (Body.innerChars ⟨frame, items⟩ ++ '}' :: t) =
      some (⟨frame, items⟩, '}' :: t)) :
    ∃ opening closing, frame = ⟨opening, closing, false, true⟩ ∧ Trails opening ∧
      Blank.Fills true closing ∧ distinctKeys items = true ∧ ∀ s ∈ items, OnLine s := by
  obtain ⟨opening, r, first, more₁⟩ := bind_eq_some_iff.mp run
  obtain ⟨le, r₁, second, more₂⟩ := bind_eq_some_iff.mp more₁
  obtain ⟨⟨items', ends⟩, r₂, third, more₃⟩ := bind_eq_some_iff.mp more₂
  obtain ⟨closing, r₃, fourth, last⟩ := bind_eq_some_iff.mp more₃
  cases last
  obtain ⟨kind, rfl⟩ := Blank.lineEnd_eq_some_iff.mp second
  obtain ⟨found, r₄, many, guarded⟩ := bind_eq_some_iff.mp third
  obtain ⟨_, r₅, distinct, last⟩ := bind_eq_some_iff.mp guarded
  rw [guard_apply] at distinct
  split at distinct
  case isFalse => cases distinct
  case isTrue ok =>
    cases distinct
    cases last
    -- The printed lines weigh no more than what they were read from. The two texts are the same, so
    -- the line end in front of the lines weighs no more than the printed one.
    obtain ⟨w, rfl, light⟩ := (light_line light_item).many _ _ _ many
    have chain := many_iff_chain.mp many
    rw [← weight_linesChars item_nil chain] at light
    obtain rfl := Blank.across_split fourth
    have text := lineRest_split first
    simp only [Body.innerChars, Bool.false_eq_true, if_false, List.append_assoc,
      List.append_cancel_left_eq, List.cons_append] at text
    have weights := congrArg weight text
    have lineFeed : weight ['\n'] = heft '\n' := by simp
    simp only [weight_append, weight_cons] at weights
    obtain rfl := Blank.eq_newline_of_weight kind (by omega)
    obtain rfl := List.append_cancel_right (List.cons.inj text).2
    obtain ⟨onLines, ended⟩ := onLine_of_chain chain
    rw [ended (by simp)]
    refine ⟨opening, closing, rfl, trails_of_lineRest first (.inr ⟨_, rfl⟩), ?_, ok,
      fun s member => ?_⟩
    · exact Blank.fills_of_across fourth (Closed.hard ⟨t, rfl⟩ true)
    · obtain ⟨x, inside, rfl⟩ := List.mem_map.mp member
      exact onLines x inside

/-- The attribute in a body on one line, or its blank space, that was read from its own text. -/
theorem rowBody_cases {frame : Frame} {items : List Structure} {t : Chars}
    (run : rowBody (Body.innerChars ⟨frame, items⟩ ++ '}' :: t) = some (⟨frame, items⟩, '}' :: t)) :
    (∃ s, frame = ⟨[], [], true, true⟩ ∧ items = [s] ∧ Blank.Fills false (s.layout.before.getD []) ∧
        Blank.Fills false (s.layout.after.getD []) ∧
        ∃ r, assignment (s.bareChars ++ r) = some (s.withLayout {}, r)) ∨
      ∃ closing, frame = ⟨[], closing, true, true⟩ ∧ items = [] ∧ Blank.Fills false closing := by
  rcases orElse_eq_some_iff.mp run with attr | ⟨-, empty⟩
  · left
    obtain ⟨before, r, lead, more₁⟩ := bind_eq_some_iff.mp attr
    obtain ⟨s, r₁, read, more₂⟩ := bind_eq_some_iff.mp more₁
    obtain ⟨after, r₂, rest, last⟩ := bind_eq_some_iff.mp more₂
    cases last
    obtain ⟨w, rfl, -⟩ := light_assignment _ _ _ read
    have read' : item (w ++ r₁) = some (s, r₁) := by
      rw [item_eq]
      exact orElse_of_eq_some read
    -- The text and what is printed have the same blank space around the attribute, so they have the
    -- same attribute, too.
    have text := Blank.inline_split lead
    rw [Blank.inline_split rest] at text
    simp only [Body.innerChars, rowChars, if_true, Structure.chars_withLayout, List.nil_append,
      List.append_nil, List.append_assoc, List.append_cancel_left_eq] at text
    obtain rfl := List.append_cancel_right text
    obtain ⟨c, u, start, same⟩ := leads_item _ _ read'
    refine ⟨_, rfl, rfl, ?_, ?_, r₁, ?_⟩
    · rw [Structure.layout_withLayout]
      exact Blank.fills_of_inline lead (by rw [same]; exact hard_of_isWordStart start u)
    · rw [Structure.layout_withLayout]
      exact Blank.fills_of_inline rest (Closed.hard ⟨t, rfl⟩ false)
    · rw [Structure.bareChars_withLayout, withLayout_of_item read']
      exact read
  · right
    obtain ⟨closing, r, gap, last⟩ := bind_eq_some_iff.mp empty
    cases last
    exact ⟨closing, rfl, rfl, Blank.fills_of_inline gap (Closed.hard ⟨t, rfl⟩ false)⟩

end Reader

/-! ### Structures and documents that were read from their own texts -/

/-- A structure that was read from its own text. -/
theorem Structure.readable_of_item {s : Structure} (run : ∃ t, item (s.bareChars ++ t) =
    some (s.withLayout {}, t)) (whole : s.Whole) : s.Readable := by
  -- The structures in a block are smaller, and each of them was read from its own text, too.
  induction size : sizeOf s using Nat.strongRecOn generalizing s with
  | ind n ih =>
  subst size
  obtain ⟨t, run⟩ := run
  rw [item_eq] at run
  rcases orElse_eq_some_iff.mp run with assigned | ⟨-, blocked⟩
  · exact readable_of_assignment assigned whole
  cases s with
  | attr _ key gap value => exact absurd rfl (block_ne_attr item _ _ _ blocked {} key gap value)
  | block layout word gap labels frame items =>
    obtain ⟨heads, inside⟩ := @block_cases layout _ _ _ _ _ _ blocked
    have each := wholeStructures_iff.mp whole
    rcases orElse_eq_some_iff.mp inside with onLines | ⟨-, onRow⟩
    · obtain ⟨opening, closing, rfl, opened, closed, distinct, lines⟩ := linesBody_cases onLines
      refine .lines heads opened closed distinct (fun s member => (lines s member).1)
        fun s member => ih (sizeOf s) ?_ (lines s member).2 (each s member) rfl
      have smaller := List.sizeOf_lt_of_mem member
      simp only [Structure.block.sizeOf_spec]
      omega
    · rcases rowBody_cases onRow with ⟨s, rfl, rfl, before, after, r, read⟩ |
      ⟨closing, rfl, rfl, closed⟩
      · have readable := readable_of_assignment read (each s List.mem_cons_self)
        cases s with
        | attr => exact .row heads before after readable
        | block _ word gap labels frame items =>
          exact absurd rfl (assignment_ne_block _ _ _ read {} word gap labels frame items)
      · exact .empty heads closed

/-- A document that was read from its own text. -/
theorem Body.readable_of_document {body : Body} (run : document body.chars = some (body, []))
    (whole : WholeStructures body.items) : body.Readable := by
  rw [document_eq] at run
  obtain ⟨⟨items, ends⟩, r, found, more₁⟩ := bind_eq_some_iff.mp run
  obtain ⟨closing, r₁, closed, more₂⟩ := bind_eq_some_iff.mp more₁
  obtain ⟨_, r₂, atEnd, last⟩ := bind_eq_some_iff.mp more₂
  cases last
  have done : r₁ = [] := by
    cases r₁ with
    | nil => rfl
    | cons => cases atEnd
  subst done
  obtain ⟨found', r₃, many, guarded⟩ := bind_eq_some_iff.mp found
  obtain ⟨_, r₄, distinct, last⟩ := bind_eq_some_iff.mp guarded
  rw [guard_apply] at distinct
  split at distinct
  case isFalse => cases distinct
  case isTrue ok =>
    cases distinct
    cases last
    obtain rfl : r = closing := by simpa using Blank.across_split closed
    obtain ⟨lines, ended⟩ := onLine_of_chain (many_iff_chain.mp many)
    have onLines : ∀ s ∈ found'.map (·.1), OnLine s := by
      intro s member
      obtain ⟨x, inside, rfl⟩ := List.mem_map.mp member
      exact lines x inside
    have each := wholeStructures_iff.mp whole
    refine ⟨rfl, rfl, ok, fun s member => (onLines s member).1,
      fun s member => s.readable_of_item (onLines s member).2 (each s member), ?_, closed⟩
    intro unended
    refine ⟨?_, ?_⟩
    · by_contra nonempty
      rw [ended nonempty] at unended
      cases unended
    · rintro empty
      obtain rfl := List.map_eq_nil_iff.mp empty
      cases unended

/-- A document that was read from its own text has everything written. -/
theorem Body.asRead_of_document {body : Body} (run : document body.chars = some (body, []))
    (whole : WholeStructures body.items) : body.asRead = body := by
  have again := document_of_readable (body.readable_of_document run whole)
  rw [run] at again
  exact (congrArg Prod.fst (Option.some.inj again)).symm

end TerraformPins.Hcl
