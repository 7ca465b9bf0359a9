import TerraformPins.Proofs.Hcl.Written

/-!
# What is read from any text

Whatever text a document was read from, blank space stands in it where it is read as blank space,
and words where they are read as words. So much is known even of a document that is not read from
its own text, since nothing is dropped from these pieces.

## Main definitions

* `Node.Laid` — an object in which blank space is read as it is
* `Headed` — the head of a block up to its labels
* `Structure.Parsed` — a structure with blank space and words that are read as they are

## Main results

* `Reader.parsed_structureUpTo` — what is read is of this kind
* `Document.parsed_of_read` — so are the structures of a document that was read
-/

namespace TerraformPins

open Hcl Scan Grammar Reader Document

namespace Hcl

/-! ### Objects -/

/-- An object in which blank space is read as it is: in front of the keys and of the brace, and
behind a value that ends at the brace. -/
def Node.Laid (node : Node) : Prop :=
  ∀ entries closing, node = .object entries closing → Blank.Fills true closing ∧
    ∀ e ∈ entries, Blank.Fills true (e.key.layout.before.getD []) ∧
      (e.stop = .brace → Blank.Fills false (e.value.layout.after.getD []))

namespace Grammar

/-- An expression in parentheses is something other than an object. -/
theorem other_group : (group nested).Yields Node.Other :=
  .bind fun _ => .bind fun _ => .bind fun _ => .pure nofun

theorem other_quoted : (quoted nested).Yields Node.Other := by
  refine .bind fun _ => .bind fun parts => .bind fun _ => ?_
  split <;> exact .pure nofun

theorem other_list : (list nested).Yields Node.Other :=
  .bind fun _ => .bind fun _ => .ite
    (.bind fun _ => .bind fun _ => .bind fun _ => .bind fun _ => .bind fun _ => .pure nofun)
    (.bind fun _ => .ite
      (.bind fun _ => .bind fun _ => .bind fun _ => .pure nofun)
      (.bind fun _ => .bind fun _ => .bind fun _ => .pure nofun))

theorem other_heredoc : (heredoc nested).Yields Node.Other := by
  refine .bind fun _ => .bind fun dash => .bind fun _ => .bind fun _ => .bind fun lines =>
    .bind fun _ => ?_
  cases (if dash.isSome then Indent.common? lines.1 else none) <;> exact .pure nofun

theorem other_nameOrCall : (nameOrCall nested).Yields Node.Other :=
  .bind fun _ => .orElse
    (.bind fun _ => .bind fun _ => .bind fun _ => .ite
      (.bind fun _ => .bind fun _ => .bind fun _ => .pure nofun)
      (.bind fun _ => .bind fun _ => .bind fun _ => .pure nofun))
    (.pure nofun)

/-- A term that is an object begins with its brace. -/
theorem brace_of_term {cs r : Chars} {entries : List Entry} {closing : Chars} {grouped : Bool}
    (run : term nested cs = some ((.object entries closing, grouped), r)) : ∃ u, cs = '{' :: u := by
  rcases term_cases run with ⟨-, taken⟩ | ⟨-, taken | taken | taken | ⟨_, same, -⟩ | taken | taken⟩
  · exact absurd rfl (other_group _ _ _ taken entries closing)
  · exact absurd rfl (other_quoted _ _ _ taken entries closing)
  · exact absurd rfl (other_list _ _ _ taken entries closing)
  · -- the reader of objects is the only one that can have made an object
    obtain ⟨c, u, brace, same⟩ := leads_object _ _ taken
    obtain rfl := beq_iff_eq.mp brace
    exact ⟨u, same⟩
  · cases same
  · exact absurd rfl (other_heredoc _ _ _ taken entries closing)
  · exact absurd rfl (other_nameOrCall _ _ _ taken entries closing)

/-- An expression that is an object begins with its brace. -/
theorem brace_of_nested {cs r : Chars} {entries : List Entry} {closing : Chars}
    (run : nested false cs = some (.object entries closing, r)) : ∃ u, cs = '{' :: u := by
  obtain ⟨ops, t, ⟨base, grouped⟩, v, signs, first, tail⟩ := nested_eq_some_iff.mp run
  obtain ⟨steps, w, repeated, more⟩ := bind_eq_some_iff.mp tail
  -- Operators, signs and steps make other expressions, so the object is the first term.
  rcases operation_cases more with ⟨_, _, _, same⟩ | ⟨_, _, _, same⟩ | ⟨same, rfl⟩
  · cases same
  · cases same
  · unfold withSign at same
    split at same
    · cases same
    case h_2 none =>
      obtain rfl := List.getLast?_eq_none_iff.mp none
      cases many_iff_chain.mp signs
      unfold selected at same
      split at same
      · rw [show base = .object entries closing from same.symm] at first
        exact brace_of_term first
      · cases same

/-- What stands in front of the key of an entry that was read, and behind its value in front of the
brace, is blank space. -/
theorem laid_of_entry : (entry nested).Yields fun e =>
    Blank.Fills true (e.key.layout.before.getD []) ∧
    (e.stop = .brace → Blank.Fills false (e.value.layout.after.getD [])) := by
  intro cs e r run
  obtain ⟨key, sign, X, b, V, node, Y, after, stop, keyRead, -, -, behind, rfl⟩ :=
    entry_eq_some_iff.mp run
  obtain ⟨before, t, lead, inner⟩ := bind_eq_some_iff.mp keyRead
  obtain ⟨kn, u, read, tail⟩ := bind_eq_some_iff.mp inner
  obtain ⟨_, _, _, last⟩ := bind_eq_some_iff.mp tail
  cases last
  constructor
  · obtain ⟨c, v, start, rfl⟩ := leads_nested false _ _ read
    exact Blank.fills_of_across lead (hard_of_isStart start)
  · -- In front of the brace there is no comment up to the end of a line.
    rintro rfl
    obtain ⟨gap, u, comment, filled, stopped, rfl⟩ := behindValue_eq_some_iff.mp behind
    rcases entryStop_cases stopped with ⟨same, -⟩ | ⟨_, _, same, -⟩ | ⟨same, rfl, first⟩
    · cases same
    · cases same
    · cases same
      rw [List.append_nil]
      refine Blank.fills_of_inline filled fun c here => ?_
      obtain rfl := Option.some.inj (first.symm.trans here)
      decide

/-- An entry that is put among others is one of them or the new one. -/
theorem mem_of_mem_put {x e : Entry} {kept : List Entry} (member : x ∈ Entry.put e kept) :
    x = e ∨ x ∈ kept := by
  induction kept with
  | nil => exact .inl (List.mem_singleton.mp member)
  | cons y kept ih =>
    rw [Entry.put] at member
    split at member
    · exact (List.mem_cons.mp member).imp id (List.mem_cons_of_mem y)
    · rcases List.mem_cons.mp member with rfl | behind
      · exact .inr List.mem_cons_self
      · exact (ih behind).imp id (List.mem_cons_of_mem y)

/-- The entries that are left were read. -/
theorem mem_of_mem_distinct {x : Entry} {entries : List Entry}
    (member : x ∈ Entry.distinct entries) : x ∈ entries := by
  -- The fold has kept entries of the list and of what it started with.
  have kept (es start : List Entry)
      (inside : x ∈ es.foldl (fun kept e => Entry.put e kept) start) : x ∈ es ∨ x ∈ start := by
    induction es generalizing start with
    | nil => exact .inr inside
    | cons e es ih =>
      rcases ih _ inside with behind | here
      · exact .inl (List.mem_cons_of_mem e behind)
      · rcases mem_of_mem_put here with rfl | before
        · exact .inl List.mem_cons_self
        · exact .inr before
  exact (kept entries [] member).resolve_right List.not_mem_nil

/-- An object that was read from whatever text. -/
theorem laid_of_nested : (nested false).Yields Node.Laid := by
  rintro cs _ r run entries closing rfl
  obtain ⟨u, rfl⟩ := brace_of_nested run
  obtain ⟨-, found, t, repeated, rfl, gap⟩ := object_eq_some_iff.mp (object_of_nested run)
  refine ⟨Blank.fills_of_across gap (Closed.hard ⟨r, rfl⟩ true), fun e member => ?_⟩
  exact laid_of_entry.many _ _ _ repeated e (mem_of_mem_distinct member)

end Grammar

/-! ### Structures -/

/-- The head of a block: a word that ends, blank space, and then a quote, another word or the
brace. -/
structure Headed (word gap : Chars) (labels : List Label) : Prop where
  named : Named word
  filled : Blank.Fills false gap
  ends : ∀ t, EndsName (gap ++ (labelsChars labels ++ '{' :: t))
  behind : ∀ t, ∃ c u, labelsChars labels ++ '{' :: t = c :: u ∧ Blank.soft false c = false ∧
    c ≠ '='

/-- A structure with blank space and words that are read as they are. -/
inductive Structure.Parsed : Structure → Prop
  | attr {layout : Layout} {key : Chars} {gap : Option Chars} {value : Expr} (named : Named key)
      (filled : Blank.Fills false (gap.getD [' '])) (laid : value.node.Laid) :
      Parsed (.attr layout key gap value)
  | lines {layout : Layout} {word gap opening closing : Chars} {labels : List Label}
      {items : List Structure} (headed : Headed word gap labels) (closed : Blank.Fills true closing)
      (placed : ∀ s ∈ items, Blank.Fills true (s.layout.before.getD []))
      (parsed : ∀ s ∈ items, Parsed s) :
      Parsed (.block layout word gap labels ⟨opening, closing, false, true⟩ items)
  | row {layout : Layout} {word gap closing : Chars} {labels : List Label} {items : List Structure}
      (headed : Headed word gap labels)
      (onLine : ∀ t, (rowChars items ++ (closing ++ '}' :: t)).head? ≠ some '\n')
      (parsed : ∀ s ∈ items, Parsed s) :
      Parsed (.block layout word gap labels ⟨[], closing, true, true⟩ items)

theorem Structure.Parsed.withLayout {s : Structure} (h : s.Parsed) (layout : Layout) :
    (s.withLayout layout).Parsed := by
  cases h with
  | attr named filled laid => exact .attr named filled laid
  | lines headed closed placed parsed => exact .lines headed closed placed parsed
  | row headed onLine parsed => exact .row headed onLine parsed

/-- The head of a block that was read. -/
theorem Structure.Parsed.headed {layout : Layout} {word gap : Chars} {labels : List Label}
    {frame : Frame} {items : List Structure}
    (h : (Structure.block layout word gap labels frame items).Parsed) : Headed word gap labels := by
  cases h with
  | lines headed => exact headed
  | row headed => exact headed

/-- What stands in a structure that was read was read. -/
theorem Structure.Parsed.inner {s : Structure} (h : s.Parsed) : ∀ t ∈ s.inner, t.Parsed := by
  cases h with
  | attr => exact fun t member => absurd member List.not_mem_nil
  | lines _ _ _ parsed => exact parsed
  | row _ _ parsed => exact parsed

/-- Such a structure begins with a word. -/
theorem Structure.Parsed.head {s : Structure} (h : s.Parsed) :
    ∃ c t, s.bareChars = c :: t ∧ isWordStart c = true := by
  cases h with
  | attr named =>
    obtain ⟨c, w, rfl, start⟩ := named.head
    exact ⟨c, _, rfl, start⟩
  | lines headed =>
    obtain ⟨c, w, rfl, start⟩ := headed.named.head
    exact ⟨c, _, rfl, start⟩
  | row headed =>
    obtain ⟨c, w, rfl, start⟩ := headed.named.head
    exact ⟨c, _, rfl, start⟩

namespace Reader

/-- An attribute that is read is parsed. -/
theorem parsed_assignment : assignment.Yields Structure.Parsed := by
  intro cs s r run
  obtain ⟨word, t, first, more₁⟩ := bind_eq_some_iff.mp run
  obtain ⟨gap, t₁, second, more₂⟩ := bind_eq_some_iff.mp more₁
  obtain ⟨u, rfl, more₃⟩ := exactly_bind_eq_some_iff.mp more₂
  obtain ⟨value, t₂, third, last⟩ := bind_eq_some_iff.mp more₃
  obtain ⟨b, v, -, inner⟩ := bind_eq_some_iff.mp third
  obtain ⟨node, w, read, last'⟩ := bind_eq_some_iff.mp inner
  cases last'
  cases last
  refine .attr (named_of_identifier first) (Blank.fills_of_inline second fun c here => ?_)
    (laid_of_nested _ _ _ read)
  obtain rfl := Option.some.inj here
  decide

/-- A label begins as in the text that it was read from. -/
theorem head_of_label {cs r : Chars} {l : Label} (run : label cs = some (l, r)) :
    ∃ c u, l.chars = c :: u ∧ cs.head? = some c ∧ (c = '"' ∨ isWordStart c = true) := by
  rcases orElse_eq_some_iff.mp run with quoted | ⟨-, word⟩
  · obtain ⟨t, rfl, more⟩ := exactly_bind_eq_some_iff.mp quoted
    obtain ⟨text, t, -, more⟩ := bind_eq_some_iff.mp more
    obtain ⟨_, t, -, more⟩ := bind_eq_some_iff.mp more
    obtain ⟨after, t, -, last⟩ := bind_eq_some_iff.mp more
    cases last
    exact ⟨'"', _, rfl, rfl, .inl rfl⟩
  · obtain ⟨text, t, first, more⟩ := bind_eq_some_iff.mp word
    obtain ⟨after, u, -, last⟩ := bind_eq_some_iff.mp more
    cases last
    obtain ⟨c, w, rfl, start⟩ := (named_of_identifier first).head
    exact ⟨c, _, rfl, by rw [identifier_split first]; rfl, .inr start⟩

/-- Labels and the brace behind them begin as in the text that they were read from. -/
theorem head_of_labelsChars {cs r : Chars} {labels : List Label}
    (run : Scan.many label cs = some (labels, r)) (brace : Braced r) (t : Chars) :
    ∃ c u, labelsChars labels ++ '{' :: t = c :: u ∧ cs.head? = some c ∧
      (c = '"' ∨ isWordStart c = true ∨ c = '{') := by
  cases many_iff_chain.mp run with
  | nil =>
    obtain ⟨u, rfl⟩ := brace
    exact ⟨'{', t, rfl, rfl, .inr (.inr rfl)⟩
  | cons taken =>
    obtain ⟨c, u, same, first, start⟩ := head_of_label taken
    exact ⟨c, _, by rw [labelsChars, List.map_cons, List.flatten_cons, same]; rfl, first,
      start.imp id .inl⟩

theorem endsName_of_identifier {cs word t : Chars} (run : identifier cs = some (word, t)) :
    EndsName t := by
  obtain ⟨c, u, -, more⟩ := bind_eq_some_iff.mp run
  obtain ⟨v, u', taken, last⟩ := bind_eq_some_iff.mp more
  cases last
  exact (run_eq_some_iff.mp taken).2.2

/-- The head of a block is its word and its labels, with blank space between them. -/
theorem headed_of_header {cs r word gap : Chars} {labels : List Label}
    (run : header cs = some ((word, gap, labels), r)) (brace : Braced r) :
    Headed word gap labels := by
  obtain ⟨_, t, first, more₁⟩ := bind_eq_some_iff.mp run
  obtain ⟨_, u, second, more₂⟩ := bind_eq_some_iff.mp more₁
  obtain ⟨_, v, third, last⟩ := bind_eq_some_iff.mp more₂
  cases last
  -- The word ended in the text that it was read from, and what is printed behind it begins alike.
  have ended := endsName_of_identifier first
  rw [Blank.inline_split second] at ended
  have behind := head_of_labelsChars third brace
  refine ⟨named_of_identifier first, Blank.fills_of_inline second fun d here => ?_,
    fun t d here => ?_, fun t => ?_⟩
  · obtain ⟨c, x, -, same, kind⟩ := behind []
    obtain rfl := Option.some.inj (same.symm.trans here)
    exact (soft_of_labelHead kind).1
  · obtain ⟨c, x, same, front, -⟩ := behind t
    refine ended d ?_
    rw [same] at here
    cases gap with
    | nil => exact front.trans here
    | cons e gap => exact here
  · obtain ⟨c, x, same, -, kind⟩ := behind t
    exact ⟨c, x, same, soft_of_labelHead kind⟩

/-- An attribute on the line of its braces, or blank space there. -/
theorem parsed_of_rowBody : rowBody.Yields fun body => (∀ s ∈ body.items, s.Parsed) ∧
    ∃ closing, body.frame = ⟨[], closing, true, true⟩ ∧
      ∀ t, (rowChars body.items ++ (closing ++ '}' :: t)).head? ≠ some '\n' := by
  intro cs body r run
  rcases orElse_eq_some_iff.mp run with attr | ⟨-, empty⟩
  · obtain ⟨before, t, lead, more₁⟩ := bind_eq_some_iff.mp attr
    obtain ⟨s, t₁, read, more₂⟩ := bind_eq_some_iff.mp more₁
    obtain ⟨after, t₂, -, last⟩ := bind_eq_some_iff.mp more₂
    cases last
    have parsed := parsed_assignment _ _ _ read
    -- A line feed at the front would be blank space inside a line or the start of a word.
    refine ⟨fun x member => ?_, [], rfl, fun t newline => ?_⟩
    · obtain rfl := List.mem_singleton.mp member
      exact parsed.withLayout _
    · rw [rowChars, Structure.chars_withLayout] at newline
      cases before with
      | cons c before =>
        obtain rfl := Option.some.inj newline
        exact absurd (Blank.soft_of_inline lead) (by decide)
      | nil =>
        obtain ⟨c, u, same, start⟩ := parsed.head
        rw [same] at newline
        obtain rfl := Option.some.inj newline
        exact absurd start (by decide)
  · obtain ⟨closing, t, gap, last⟩ := bind_eq_some_iff.mp empty
    cases last
    refine ⟨fun x member => absurd member List.not_mem_nil, closing, rfl, fun t newline => ?_⟩
    cases closing with
    | nil => exact absurd newline (by simp [rowChars])
    | cons c closing =>
      obtain rfl := Option.some.inj newline
      exact absurd (Blank.soft_of_inline gap) (by decide)

section Inner

variable {inner : Scan Structure} (lead : Leads isWordStart inner) (short : inner.Shortens)
  (each : inner.Yields Structure.Parsed)

include lead each in
/-- The structure on a line is parsed, and what stands in front of it is blank space. -/
theorem parsed_of_line : (line inner).Yields fun x =>
    Blank.Fills true (x.1.layout.before.getD []) ∧ x.1.Parsed := by
  intro cs x r run
  rw [line_eq] at run
  obtain ⟨before, t, gap, more₁⟩ := bind_eq_some_iff.mp run
  obtain ⟨s, t₁, read, more₂⟩ := bind_eq_some_iff.mp more₁
  obtain ⟨after, t₂, -, more₃⟩ := bind_eq_some_iff.mp more₂
  obtain ⟨ends, t₃, -, last⟩ := bind_eq_some_iff.mp more₃
  cases last
  obtain ⟨c, u, start, rfl⟩ := lead _ _ read
  rw [Structure.layout_withLayout]
  exact ⟨Blank.fills_of_across gap (hard_of_isWordStart start u), (each _ _ _ read).withLayout _⟩

include short in
/-- Lines in front of something else have line ends. -/
theorem ends_of_many {cs r : Chars} {found : List (Structure × Bool)}
    (run : Scan.many (line inner) cs = some (found, r)) (behind : r ≠ []) :
    found.all (·.2) = true := by
  have shortens := (tracks_line (.refl short : Tracks 0 inner inner)).shortens.many
  induction many_iff_chain.mp run with
  | nil => rfl
  | @cons cs rest last x more taken _ chain ih =>
    have later := many_eq_some_of_chain chain
    rw [List.all_cons, ih later behind, Bool.and_true]
    rw [line_eq] at taken
    obtain ⟨before, t, -, more₁⟩ := bind_eq_some_iff.mp taken
    obtain ⟨s, t₁, -, more₂⟩ := bind_eq_some_iff.mp more₁
    obtain ⟨after, t₂, -, more₃⟩ := bind_eq_some_iff.mp more₂
    obtain ⟨ends, t₃, stop, same⟩ := bind_eq_some_iff.mp more₃
    cases same
    rcases lineStop_eq_some_iff.mp stop with ⟨rfl, -⟩ | ⟨-, -, rfl⟩
    · rfl
    · -- a line without an end is the end of the text
      obtain ⟨w, split⟩ := shortens _ _ _ later
      exact absurd (List.append_eq_nil_iff.mp split.symm).2 behind

include short in
/-- The last of several lines has an end, if something is behind it. -/
theorem ends_of_lines {cs r : Chars} {items : List Structure} {ends : Bool}
    (run : lines inner cs = some ((items, ends), r)) (behind : r ≠ []) : ends = true := by
  obtain ⟨found, t, many, guarded⟩ := bind_eq_some_iff.mp run
  obtain ⟨_, t', distinct, last⟩ := bind_eq_some_iff.mp guarded
  rw [guard_apply] at distinct
  split at distinct
  case isFalse => cases distinct
  case isTrue =>
    cases distinct
    cases last
    exact ends_of_many short many behind

include lead each in
theorem parsed_of_lines : (lines inner).Yields fun x =>
    ∀ s ∈ x.1, Blank.Fills true (s.layout.before.getD []) ∧ s.Parsed := by
  intro cs x r run
  obtain ⟨found, t, many, guarded⟩ := bind_eq_some_iff.mp run
  obtain ⟨_, t', -, last⟩ := bind_eq_some_iff.mp guarded
  cases last
  intro s member
  obtain ⟨y, inside, rfl⟩ := List.mem_map.mp member
  exact (parsed_of_line lead each).many _ _ _ many y inside

include lead short each in
/-- A block of parsed structures is parsed. -/
theorem parsed_of_block : (block inner).Yields Structure.Parsed := by
  intro cs s r run
  rw [block_eq] at run
  obtain ⟨⟨word, gap, labels⟩, t, head, more₁⟩ := bind_eq_some_iff.mp run
  obtain ⟨u, rfl, more₂⟩ := exactly_bind_eq_some_iff.mp more₁
  obtain ⟨body, t', inside, more₃⟩ := bind_eq_some_iff.mp more₂
  obtain ⟨t'', rfl, last⟩ := exactly_bind_eq_some_iff.mp more₃
  cases last
  have headed := headed_of_header head ⟨u, rfl⟩
  rcases orElse_eq_some_iff.mp inside with onLines | ⟨-, onRow⟩
  · obtain ⟨opening, r₁, -, more₁⟩ := bind_eq_some_iff.mp onLines
    obtain ⟨_, r₂, -, more₂⟩ := bind_eq_some_iff.mp more₁
    obtain ⟨⟨items, ends⟩, r₃, found, more₃⟩ := bind_eq_some_iff.mp more₂
    obtain ⟨closing, r₄, closed, last⟩ := bind_eq_some_iff.mp more₃
    cases last
    have lines := parsed_of_lines lead each _ _ _ found
    -- The brace stands behind the lines, so each of them has an end.
    have ended : ends = true := ends_of_lines short found (by rw [Blank.across_split closed]; simp)
    rw [ended]
    exact .lines headed (Blank.fills_of_across closed (Closed.hard ⟨_, rfl⟩ true))
      (fun s member => (lines s member).1) fun s member => (lines s member).2
  · obtain ⟨parsed, closing, shape, onLine⟩ := parsed_of_rowBody _ _ _ onRow
    rw [shape]
    exact .row headed onLine parsed

end Inner

theorem leads_structureUpTo (depth : Nat) : Leads isWordStart (structureUpTo depth) := by
  cases depth with
  | zero => exact fun _ _ run => by cases run
  | succ depth => exact leads_identifier.bind.orElse leads_identifier.bind

/-- What is read as a structure has blank space and words that are read as they are. -/
theorem parsed_structureUpTo (depth : Nat) : (structureUpTo depth).Yields Structure.Parsed := by
  induction depth with
  | zero => exact fun _ _ _ run => by cases run
  | succ depth ih =>
    exact parsed_assignment.orElse
      (parsed_of_block (leads_structureUpTo depth) (shortens_structureUpTo depth) ih)

end Reader

end Hcl

/-- The structures of a document that was read from whatever text. -/
theorem Document.parsed_of_read {text : String} {d : Document}
    (read : Document.read? text = some d) : ∀ s ∈ d.body.items, s.Parsed := by
  obtain ⟨body, run, rfl⟩ := Option.map_eq_some_iff.mp read
  unfold Body.read? Scan.all? at run
  split at run
  case h_2 => cases run
  case h_1 _ found =>
    obtain rfl := Option.some.inj run
    obtain ⟨⟨items, ends⟩, r, lined, more₁⟩ := bind_eq_some_iff.mp found
    obtain ⟨closing, r₁, -, more₂⟩ := bind_eq_some_iff.mp more₁
    obtain ⟨_, r₂, -, last⟩ := bind_eq_some_iff.mp more₂
    cases last
    have each := parsed_of_lines (leads_structureUpTo _) (parsed_structureUpTo _) _ _ _ lined
    exact fun s member => (each s member).2

end TerraformPins
