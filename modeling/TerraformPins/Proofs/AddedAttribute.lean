import TerraformPins.Proofs.Hcl.Clash
import TerraformPins.Proofs.Hcl.Stable
import TerraformPins.Proofs.Slot.Single

/-!
# An attribute that is added to a block

A version that a block on the top level lacks is added to it as an attribute. If the block is
written over lines, the attribute is one more line of the text and all else stays. If it is written
on one line, it is spread over lines before that, and the comments next to its attribute get lost.

## Main definitions

* `Body.Formed` — the body of a block as it is read
* `Indents` — the indentation that the structures of a block show
* `addedLine` — the line of an added attribute

## Main results

* `Document.formed_of_read` — the blocks of a document that was read are of this form
* `Document.setVersion_insertsLine` — an attribute that is added to a block over lines
* `Document.setVersion_spreads` — an attribute that is added to a block on one line
-/

namespace TerraformPins

open Hcl Scan Document

namespace Hcl

/-! ### Blocks as they are read -/

/-- The body of a block as it is read. Over lines there is written blank space around each
structure, and on one line there is at most one structure, which is an attribute. -/
inductive Body.Formed : Body → Prop
  | lines {opening closing : Chars} {ends : Bool} {items : List Structure}
      (placed : ∀ s ∈ items, ∃ before after, s.layout = .written before after) :
      Formed ⟨⟨opening, closing, false, ends⟩, items⟩
  | empty (closing : Chars) : Formed ⟨⟨[], closing, true, true⟩, []⟩
  | single (before after key : Chars) (gap : Option Chars) (value : Expr) :
      Formed ⟨⟨[], [], true, true⟩, [.attr (.written before after) key gap value]⟩

/-- A structure that is an attribute or a block with such a body. -/
def Structure.Formed (s : Structure) : Prop :=
  ∀ layout word gap labels frame items, s = .block layout word gap labels frame items →
    Body.Formed ⟨frame, items⟩

theorem Structure.Formed.withLayout {s : Structure} (h : s.Formed) (layout : Layout) :
    (s.withLayout layout).Formed := by
  cases s with
  | attr => exact fun _ _ _ _ _ _ same => nomatch same
  | block old word gap labels frame items =>
    rintro _ _ _ _ _ _ ⟨⟩
    exact h old word gap labels frame items rfl

namespace Reader

variable {inner : Scan Structure}

theorem written_of_line (inner : Scan Structure) :
    (line inner).Yields fun x => ∃ before after, x.1.layout = .written before after :=
  .bind fun before => .bind fun _ => .bind fun after => .bind fun _ =>
    .pure ⟨before, after, Structure.layout_withLayout _ _⟩

/-- A structure keeps its form on a line. -/
theorem formed_of_line (each : inner.Yields Structure.Formed) :
    (line inner).Yields fun x => x.1.Formed := by
  intro cs x r run
  rw [line_eq] at run
  obtain ⟨before, t, -, more₁⟩ := bind_eq_some_iff.mp run
  obtain ⟨s, t₁, read, more₂⟩ := bind_eq_some_iff.mp more₁
  obtain ⟨after, t₂, -, more₃⟩ := bind_eq_some_iff.mp more₂
  obtain ⟨ends, t₃, -, last⟩ := bind_eq_some_iff.mp more₃
  cases last
  exact (each _ _ _ read).withLayout _

/-- What each line yields holds of all lines. -/
theorem forall_of_lines {P : Structure → Prop} (each : (line inner).Yields fun x => P x.1) :
    (lines inner).Yields fun x => ∀ s ∈ x.1, P s := by
  intro cs x r run
  obtain ⟨found, t, many, guarded⟩ := bind_eq_some_iff.mp run
  obtain ⟨_, t', -, last⟩ := bind_eq_some_iff.mp guarded
  cases last
  intro s member
  obtain ⟨y, inside, rfl⟩ := List.mem_map.mp member
  exact each.many _ _ _ many y inside

/-- A body over lines is formed. -/
theorem formed_of_linesBody (inner : Scan Structure) : (linesBody inner).Yields Body.Formed := by
  intro cs body r run
  obtain ⟨opening, t, -, more₁⟩ := bind_eq_some_iff.mp run
  obtain ⟨_, t₁, -, more₂⟩ := bind_eq_some_iff.mp more₁
  obtain ⟨⟨items, ends⟩, t₂, found, more₃⟩ := bind_eq_some_iff.mp more₂
  obtain ⟨closing, t₃, -, last⟩ := bind_eq_some_iff.mp more₃
  cases last
  exact .lines (forall_of_lines (written_of_line inner) _ _ _ found)

theorem formed_of_rowBody : rowBody.Yields Body.Formed := by
  refine .orElse ?_ (.bind fun closing => .pure (.empty closing))
  intro cs body r run
  obtain ⟨before, t, -, more₁⟩ := bind_eq_some_iff.mp run
  obtain ⟨s, t₁, read, more₂⟩ := bind_eq_some_iff.mp more₁
  obtain ⟨after, t₂, -, last⟩ := bind_eq_some_iff.mp more₂
  cases last
  cases s with
  | attr layout key gap value => exact .single before after key gap value
  | block => exact absurd rfl (assignment_ne_block _ _ _ read _ _ _ _ _ _)

/-- A structure that is read is formed. -/
theorem formed_structureUpTo (depth : Nat) : (structureUpTo depth).Yields Structure.Formed := by
  cases depth with
  | zero => exact fun _ _ _ run => nomatch run
  | succ depth =>
    refine .orElse (fun cs s r run layout word gap labels frame items same =>
      absurd same (assignment_ne_block _ _ _ run _ _ _ _ _ _)) ?_
    intro cs s r run
    rw [block_eq] at run
    obtain ⟨⟨word, gap, labels⟩, t, -, more₁⟩ := bind_eq_some_iff.mp run
    obtain ⟨u, rfl, more₂⟩ := exactly_bind_eq_some_iff.mp more₁
    obtain ⟨body, t', inside, more₃⟩ := bind_eq_some_iff.mp more₂
    obtain ⟨t'', rfl, last⟩ := exactly_bind_eq_some_iff.mp more₃
    cases last
    rintro _ _ _ _ _ _ ⟨⟩
    exact (formed_of_linesBody _).orElse formed_of_rowBody _ _ _ inside

end Reader

end Hcl

/-- The blocks of a document that was read. -/
theorem Document.formed_of_read {text : String} {d : Document}
    (read : Document.read? text = some d) : ∀ s ∈ d.body.items, s.Formed := by
  obtain ⟨body, run, rfl⟩ := Option.map_eq_some_iff.mp read
  unfold Body.read? Scan.all? at run
  split at run
  case h_2 => cases run
  case h_1 _ found =>
    obtain rfl := Option.some.inj run
    obtain ⟨⟨items, ends⟩, r, lined, more₁⟩ := bind_eq_some_iff.mp found
    obtain ⟨closing, r₁, -, more₂⟩ := bind_eq_some_iff.mp more₁
    obtain ⟨_, r₂, -, last⟩ := bind_eq_some_iff.mp more₂
    cases last
    exact Reader.forall_of_lines (Reader.formed_of_line (Reader.formed_structureUpTo _)) _ _ _ lined

namespace Hcl

/-! ### The added line -/

/-- What stands on the line of a structure in front of it, if `above` is the text in front of all
lines and the structures `init` stand on the lines between. -/
def inFront (above : Chars) (init : List Structure) (s : Structure) : Chars :=
  lastLine (above ++ linesChars true init ++ s.layout.before.getD [])

/-- The indentation that structures on lines show: what stands in front of the first of them that
has nothing but blanks in front of it on its line, or two spaces if there is none. -/
inductive Indents (above : Chars) (items : List Structure) : Chars → Prop
  | shown {init rest : List Structure} {s : Structure} (split : items = init ++ s :: rest)
      (blank : ∀ c ∈ inFront above init s, isBlank c = true)
      (first : ∀ init' s' rest', init = init' ++ s' :: rest' →
        ∃ c ∈ inFront above init' s', isBlank c = false) :
      Indents above items (inFront above init s)
  | standard (none : ∀ init s rest, items = init ++ s :: rest →
      ∃ c ∈ inFront above init s, isBlank c = false) : Indents above items standardIndent

/-- The line of an attribute that is added. -/
def addedLine (indent key : Chars) (version : String) : Chars :=
  indent ++ key ++ [' ', '=', ' '] ++ quotedVersion version ++ ['\n']

/-- The indentation of an attribute that is added to structures. -/
def newIndent (items : List Structure) : Chars :=
  (items.findSome? fun s => s.layout.indentation?).getD standardIndent

theorem lastLine_append_of_eq_nil {xs : Chars} (ends : lastLine xs = []) (ys : Chars) :
    lastLine (xs ++ ys) = lastLine ys := by
  rw [lastLine_append]
  split
  case isTrue => rfl
  case isFalse other => rw [ends, List.nil_append, lastLine_of_not_mem other]

/-- Lines end with a line end. -/
theorem lastLine_linesChars {above : Chars} (ends : lastLine above = []) (init : List Structure) :
    lastLine (above ++ linesChars true init) = [] := by
  rw [lastLine_append_of_eq_nil ends]
  induction init with
  | nil => rfl
  | cons s init ih =>
    have line : linesChars true (s :: init) = (s.chars ++ ['\n']) ++ linesChars true init := by
      simp [linesChars]
    have ended : lastLine (s.chars ++ ['\n']) = [] := by
      rw [lastLine_append, if_pos (by simp)]
      rfl
    rw [line, lastLine_append_of_eq_nil ended, ih]

/-- What stands on the line of a structure in front of it is a part of what stands between it and
the one before. -/
theorem inFront_eq {above : Chars} (ends : lastLine above = []) (init : List Structure)
    (s : Structure) : inFront above init s = lastLine (s.layout.before.getD []) :=
  lastLine_append_of_eq_nil (lastLine_linesChars ends init) _

/-- Where there is no indentation, something else stands in front of the structure on its line. -/
theorem indentation?_eq_none {layout : Layout} {before after : Chars}
    (written : layout = .written before after) (none : layout.indentation? = none) :
    ∃ c ∈ lastLine before, isBlank c = false := by
  by_contra all
  have blank : ∀ c ∈ lastLine before, isBlank c = true := by
    simpa using all
  have found : layout.indentation? = some (lastLine before) :=
    indentation?_eq_some_iff.mpr ⟨before, by rw [written]; rfl, rfl, blank⟩
  rw [none] at found
  cases found

/-- The indentation of an attribute that is added is the one that the structures show. -/
theorem indents_newIndent {above : Chars} (ends : lastLine above = []) {items : List Structure}
    (placed : ∀ s ∈ items, ∃ before after, s.layout = .written before after) :
    Indents above items (newIndent items) := by
  -- A structure without an indentation has something else in front of it.
  have crowded {init : List Structure} {s : Structure} (member : s ∈ items)
      (none : s.layout.indentation? = none) : ∃ c ∈ inFront above init s, isBlank c = false := by
    obtain ⟨before, after, written⟩ := placed s member
    rw [inFront_eq ends, written]
    exact indentation?_eq_none written none
  cases found : items.findSome? fun s => s.layout.indentation? with
  | none =>
    rw [newIndent, found]
    refine .standard fun init s rest split => ?_
    have member : s ∈ items := by simp [split]
    exact crowded member (List.findSome?_eq_none_iff.mp found s member)
  | some indent =>
    obtain ⟨init, s, rest, rfl, here, before⟩ := List.findSome?_eq_some_iff.mp found
    obtain ⟨text, same, rfl, blank⟩ := indentation?_eq_some_iff.mp here
    have line : inFront above init s = lastLine text := by
      rw [inFront_eq ends, same]
      rfl
    rw [newIndent, found, Option.getD_some, ← line]
    -- The search passes over every structure in front of the one that it finds.
    refine .shown rfl (line ▸ blank) fun init' s' rest' split => ?_
    exact crowded (by simp [split]) (before s' (by simp [split]))

/-- It is made of spaces and tabs. -/
theorem isSpace_newIndent {items : List Structure}
    (placed : ∀ s ∈ items, Blank.Fills true (s.layout.before.getD [])) :
    ∀ c ∈ newIndent items, Blank.isSpace c = true := by
  cases found : items.findSome? fun s => s.layout.indentation? with
  | none =>
    rw [newIndent, found]
    exact List.all_eq_true.mp (by decide)
  | some indent =>
    obtain ⟨s, member, here⟩ := List.exists_of_findSome?_eq_some found
    rw [newIndent, found]
    exact isSpace_of_indentation (placed s member) here

theorem commentsIn_of_spaces {cs : Chars} (spaces : ∀ c ∈ cs, Blank.isSpace c = true) :
    commentsIn cs = [] := by
  refine commentsIn_of_blank fun c member => ?_
  have space := spaces c member
  simp only [Blank.isSpace, Bool.or_eq_true, beq_iff_eq] at space
  rcases space with rfl | rfl <;> decide

section Added

variable (body : Body) (key : Chars) (v : String)

theorem pieces_added : (body.added key v.toList).pieces =
    [.blank (newIndent body.spread.items), .solid key, .blank [' '], .solid ['='], .blank [' '],
      .solid (quotedVersion v), .blank [], .blank []] := rfl

/-- The added attribute prints as its line. -/
theorem joined_added : joined (body.added key v.toList).pieces ++ ['\n'] =
    addedLine (newIndent body.spread.items) key v := by
  simp [pieces_added, addedLine]

/-- There are no comments in it. -/
theorem commentsOf_added (spaces : ∀ c ∈ newIndent body.spread.items, Blank.isSpace c = true) :
    commentsOf (body.added key v.toList).pieces = [] := by
  simp only [pieces_added, commentsOf_cons, commentsOf_nil, Piece.comments_blank,
    Piece.comments_solid, commentsIn_of_spaces spaces]
  rfl

end Added

/-! ### Where it stands -/

/-- Something is put behind the first member that satisfies `p`, or in front of all. -/
theorem splitBehind_cases {α : Type} (p : α → Bool) (items : List α) :
    (∃ earlier x, (splitBehind p items).1 = earlier ++ [x] ∧ p x = true ∧
      ∀ y ∈ earlier, p y = false) ∨ ((splitBehind p items).1 = [] ∧ ∀ y ∈ items, p y = false) := by
  unfold splitBehind
  cases found : items.findIdx? p with
  | none => exact .inr ⟨rfl, List.findIdx?_eq_none_iff.mp found⟩
  | some i =>
    obtain ⟨bound, here, before⟩ := List.findIdx?_eq_some_iff_getElem.mp found
    refine .inl ⟨items.take i, items[i], (List.take_append_getElem bound).symm, here,
      fun y member => ?_⟩
    obtain ⟨j, small, rfl⟩ := List.mem_take_iff_getElem.mp member
    exact Bool.eq_false_iff.mpr (before j (by omega))

theorem linesPieces_append (front back : List Structure) :
    linesPieces true (front ++ back) = linesPieces true front ++ linesPieces true back := by
  induction front with
  | nil => rfl
  | cons s front ih => simp [linesPieces, ih]

theorem linesPieces_cons (s : Structure) (rest : List Structure) :
    linesPieces true (s :: rest) = s.pieces ++ [.solid ['\n']] ++ linesPieces true rest := by
  simp [linesPieces]

end Hcl

/-- A version that is set in a block over lines which lacks it.

* The number is that of the site of the block.
* The text gets one more line. It stands behind the line of the first source of the block, or in
  front of everything else in the block if there is no source.
* It is made of an indentation, the attribute, an equals sign and the quoted version. The
  indentation is the one that the structures of the block show, and there are only spaces and tabs
  in it.
* The comments of the document stay. -/
theorem Document.setVersion_insertsLine {text : String} {d : Document} (read : read? text = some d)
    {p : BlockPlace} {body : Body} (split : d.body.items = p.items body) {key : Chars}
    (holds : versionAttribute? p.word = some key) (lines : body.frame.oneLine = false)
    (missing : valueAmong? key body.items = none) (v : String) :
    d.sites[p.index]? =
      some (if p.word = moduleWord then moduleSite p.labels body.items
        else terraformSite body.items) ∧
    ∃ head front back tail indent, body.items = front ++ back ∧
      (let above := head ++ '{' :: body.frame.opening ++ ['\n']
        let below := body.frame.closing ++ '}' :: tail
        d.text = String.ofList
          (above ++ linesChars true front ++ linesChars true back ++ below) ∧
        (d.setVersion p.index v).text = String.ofList
          (above ++ linesChars true front ++ addedLine indent key v ++ linesChars true back ++
            below) ∧
        Indents above body.items indent) ∧
      ((∃ earlier source, front = earlier ++ [source] ∧ source.isSource = true ∧
          ∀ s ∈ earlier, s.isSource = false) ∨
        (front = [] ∧ ∀ s ∈ body.items, s.isSource = false)) ∧
      (∀ c ∈ indent, Blank.isSpace c = true) ∧
      (d.setVersion p.index v).comments = d.comments := by
  refine ⟨sites_block split holds, ?_⟩
  obtain ⟨⟨opening, closing, _, ends⟩, items⟩ := body
  obtain rfl : _ = false := lines
  have member : p.block ⟨⟨opening, closing, false, ends⟩, items⟩ ∈ d.body.items := by
    rw [split]
    simp [BlockPlace.items]
  -- The block is as it is read: each of its lines has an end, and its structures are in written
  -- places.
  obtain ⟨rfl, placed, filled⟩ : ends = true ∧
      (∀ s ∈ items, ∃ before after, s.layout = .written before after) ∧
      ∀ s ∈ items, Blank.Fills true (s.layout.before.getD []) := by
    have formed := formed_of_read read _ member _ _ _ _ _ _ rfl
    have parsed := parsed_of_read read _ member
    cases formed with
    | lines placed =>
      -- That the last line has an end is known from the grammar, not from the shape of the tree.
      cases parsed with
      | lines _ _ filled => exact ⟨rfl, placed, filled⟩
  have spread : Body.spread ⟨⟨opening, closing, false, true⟩, items⟩ =
      ⟨⟨opening, closing, false, true⟩, items⟩ := spread_of_lines rfl
  have spaces := isSpace_newIndent filled
  obtain ⟨front, back, before, after⟩ := setVersion_block_pieces split holds v
  rw [setAttribute_of_none missing, addAttribute_eq, spread] at after
  have whole := splitBehind_append Structure.isSource items
  have place := splitBehind_cases Structure.isSource items
  -- From here on only the two parts matter, not how they were found.
  generalize (splitBehind Structure.isSource items).1 = first at after whole place
  generalize (splitBehind Structure.isSource items).2 = rest at after whole
  obtain rfl := whole
  refine ⟨joined front, first, rest, joined back, newIndent (first ++ rest), rfl, ⟨?_, ?_, ?_⟩,
    place, spaces, ?_⟩
  · rw [Document.text_eq, before]
    simp [Body.innerPieces, joined_linesPieces, linesChars_append]
  · have line := joined_added ⟨⟨opening, closing, false, true⟩, first ++ rest⟩ key v
    rw [spread] at line
    rw [Document.text_eq, after, ← line]
    simp [Body.innerPieces, joined_linesPieces, linesPieces_append, linesPieces_cons]
  · exact indents_newIndent (by rw [lastLine_append, if_pos (by simp)]; rfl) placed
  · have added :=
      commentsOf_added ⟨⟨opening, closing, false, true⟩, first ++ rest⟩ key v (by rwa [spread])
    rw [comments, comments, before, after]
    simp [Body.innerPieces, linesPieces_append, linesPieces_cons, added]

/-- The word of a block, whether the block is on one line and what a test says of its structures. -/
def Hcl.Structure.outline (test : List Structure → Bool) : Structure → Option (Chars × Bool × Bool)
  | .block _ word _ _ frame items => some (word, frame.oneLine, test items)
  | .attr .. => none

/-- A document that is one module without a version, and whose structures pass a test. -/
theorem Document.exists_of_outline (text : String) (oneLine : Bool) (test : List Structure → Bool)
    (evaluated : (read? text).map (fun d => d.body.items.map (Structure.outline fun items =>
      (valueAmong? versionKey items).isNone && test items)) =
        some [some (moduleWord, oneLine, true)]) :
    ∃ (d : Document) (p : BlockPlace) (body : Body), read? text = some d ∧
      d.body.items = p.items body ∧ versionAttribute? p.word = some versionKey ∧
      body.frame.oneLine = oneLine ∧ valueAmong? versionKey body.items = none ∧
      test body.items = true := by
  obtain ⟨d, read, outlines⟩ := Option.map_eq_some_iff.mp evaluated
  obtain ⟨s, alone, outline⟩ := List.map_eq_singleton_iff.mp outlines
  cases s with
  | attr => cases outline
  | block layout word gap labels frame items =>
    simp only [Structure.outline, Option.some.injEq, Prod.mk.injEq, Bool.and_eq_true,
      Option.isNone_iff_eq_none] at outline
    obtain ⟨rfl, rfl, missing, passed⟩ := outline
    exact ⟨d, ⟨[], layout, moduleWord, gap, labels, []⟩, ⟨frame, items⟩, read, alone, rfl, rfl,
      missing, passed⟩

/-- A module with a comment in front of its source. -/
def Document.sourceBelowComment : String :=
  "module \"a\" \x7b\n  # c\n  source = \"s\"\n\x7d\n"

theorem Document.setVersion_insertsLine_sourceBelowComment :
    ∃ (d : Document) (p : BlockPlace) (body : Body),
      (read? sourceBelowComment = some d ∧ d.body.items = p.items body ∧
        versionAttribute? p.word = some versionKey ∧ body.frame.oneLine = false ∧
        valueAmong? versionKey body.items = none) ∧
      (d.setVersion p.index "5.0").comments = d.comments ∧
      ∃ above indent below, d.text = String.ofList (above ++ below) ∧
        (d.setVersion p.index "5.0").text =
          String.ofList (above ++ addedLine indent versionKey "5.0" ++ below) ∧
        ∀ c ∈ indent, Blank.isSpace c = true := by
  obtain ⟨d, p, body, read, split, holds, lines, missing, -⟩ :=
    exists_of_outline sourceBelowComment false (fun _ => true) (by decide +kernel)
  obtain ⟨-, head, front, back, tail, indent, -, ⟨now, later, -⟩, -, spaces, comments⟩ :=
    setVersion_insertsLine read split holds lines missing "5.0"
  refine ⟨d, p, body, ⟨read, split, holds, lines, missing⟩, comments,
    head ++ '{' :: body.frame.opening ++ ['\n'] ++ linesChars true front, indent,
    linesChars true back ++ (body.frame.closing ++ '}' :: tail), ?_, ?_, spaces⟩
  · rw [now, List.append_assoc]
  · rw [later, List.append_assoc]

namespace Hcl

/-! ### Blocks on one line -/

/-- The attribute that is added to a block on one line. -/
def firstAttribute (key : Chars) (version : String) : Structure :=
  .attr ⟨some standardIndent, none⟩ key none (.mk {} (.text version.toList))

/-- The attribute of a block on one line, moved to a line of its own. -/
def keptAttribute (key : Chars) (gap : Option Chars) (value : Expr) : Structure :=
  .attr (.written standardIndent []) key gap value

theorem addAttribute_empty (closing key : Chars) (v : String) :
    Body.addAttribute ⟨⟨[], closing, true, true⟩, []⟩ key v.toList =
      ⟨⟨[], closing, false, true⟩, [firstAttribute key v]⟩ := rfl

/-- The attribute that a block on one line had stands in front of the added one if it is the source,
and behind it otherwise. -/
theorem addAttribute_single (layout : Layout) (k : Chars) (gap : Option Chars) (value : Expr)
    (key : Chars) (v : String) :
    Body.addAttribute ⟨⟨[], [], true, true⟩, [.attr layout k gap value]⟩ key v.toList =
      ⟨⟨[], [], false, true⟩,
        if k = sourceKey then [keptAttribute k gap value, firstAttribute key v]
        else [firstAttribute key v, keptAttribute k gap value]⟩ := by
  have kept : (keptAttribute k gap value).isSource = decide (k = sourceKey) := by
    by_cases same : k = sourceKey <;>
      simp [keptAttribute, Structure.isSource, Structure.valueOf?, same]
  have spread : Body.addAttribute ⟨⟨[], [], true, true⟩, [.attr layout k gap value]⟩ key v.toList =
      ⟨⟨[], [], false, true⟩,
        insertBehind Structure.isSource (firstAttribute key v) [keptAttribute k gap value]⟩ := rfl
  rw [spread, insertBehind, List.findIdx?_singleton, kept]
  by_cases same : k = sourceKey <;> simp [same]

/-- The comments in an attribute, without those in front of it and behind it. -/
def attributeComments (gap : Option Chars) (value : Expr) : List Chars :=
  commentsIn (gap.getD [' ']) ++ commentsOf (value.pieces [' '])

theorem commentsOf_attr (before behind key : Chars) (gap : Option Chars) (value : Expr) :
    commentsOf (Structure.attr (.written before behind) key gap value).pieces =
      commentsIn before ++ attributeComments gap value ++ commentsIn behind := by
  simp [Structure.pieces, Layout.pieces, Layout.written, attributeComments]

/-- The attribute loses the comments around it and keeps those in it. -/
theorem commentsOf_keptAttribute (key : Chars) (gap : Option Chars) (value : Expr) :
    commentsOf (keptAttribute key gap value).pieces = attributeComments gap value := by
  rw [keptAttribute, commentsOf_attr, commentsIn_of_blank (List.all_eq_true.mp (by decide))]
  simp

theorem commentsOf_firstAttribute (key : Chars) (v : String) :
    commentsOf (firstAttribute key v).pieces = [] := rfl

end Hcl

/-- A version that is set in a block on one line which lacks it.

* The number is that of the site of the block.
* The block is spread over lines, and the text around it stays. Its attribute is there with the same
  key and the same value, and the version is another one.
* The comments in front of the attribute and behind it get lost and all others stay. So the comments
  of the document stay exactly if there are none at these two places. -/
theorem Document.setVersion_spreads {text : String} {d : Document} (read : read? text = some d)
    {p : BlockPlace} {body : Body} (split : d.body.items = p.items body) {key : Chars}
    (holds : versionAttribute? p.word = some key) (oneLine : body.frame.oneLine = true)
    (missing : valueAmong? key body.items = none) (v : String) :
    d.sites[p.index]? =
      some (if p.word = moduleWord then moduleSite p.labels body.items
        else terraformSite body.items) ∧
    ∃ body' head tail, (d.setVersion p.index v).body = ⟨d.body.frame, p.items body'⟩ ∧
      d.text = String.ofList (head ++ '{' :: body.innerChars ++ '}' :: tail) ∧
      (d.setVersion p.index v).text =
      String.ofList (head ++ '{' :: body'.innerChars ++ '}' :: tail) ∧
      ((∃ closing, body = ⟨⟨[], closing, true, true⟩, []⟩ ∧
          body' = ⟨⟨[], closing, false, true⟩, [firstAttribute key v]⟩ ∧
          (d.setVersion p.index v).comments = d.comments) ∨
        ∃ before behind k gap value, k ≠ key ∧
          body = ⟨⟨[], [], true, true⟩, [.attr (.written before behind) k gap value]⟩ ∧
          body' = ⟨⟨[], [], false, true⟩,
            if k = sourceKey then [keptAttribute k gap value, firstAttribute key v]
            else [firstAttribute key v, keptAttribute k gap value]⟩ ∧
          (∃ above inside below : List Chars,
            d.comments =
              (above ++ commentsIn before ++ inside ++ commentsIn behind ++
                below).map String.ofList ∧
            (d.setVersion p.index v).comments = (above ++ inside ++ below).map String.ofList) ∧
          ((d.setVersion p.index v).comments = d.comments ↔
            commentsIn before = [] ∧ commentsIn behind = [])) := by
  refine ⟨sites_block split holds, ?_⟩
  have member : p.block body ∈ d.body.items := by
    rw [split]
    simp [BlockPlace.items]
  have formed : body.Formed := formed_of_read read _ member _ _ _ _ _ _ rfl
  obtain ⟨front, back, now, later⟩ := setVersion_block_pieces split holds v
  refine ⟨body.setAttribute key v.toList, joined front, joined back,
    congrArg Document.body (setVersion_block split holds v), ?_, ?_, ?_⟩
  · rw [Document.text_eq, now]
    simp [Body.joined_innerPieces]
  · rw [Document.text_eq, later]
    simp [Body.joined_innerPieces]
  rw [setAttribute_of_none missing] at later ⊢
  cases formed with
  | lines => cases oneLine
  | empty closing =>
    rw [addAttribute_empty] at later ⊢
    refine .inl ⟨closing, rfl, rfl, ?_⟩
    rw [comments, comments, now, later]
    simp [Body.innerPieces, rowPieces, linesPieces, commentsOf_firstAttribute]
  | single before behind k gap value =>
    have differs : k ≠ key := by
      rintro rfl
      simp [valueAmong?_cons, Structure.valueOf?] at missing
    rw [addAttribute_single] at later ⊢
    -- What is written in front of the attribute and behind it is replaced by an indentation.
    have had : d.comments = (commentsOf front ++ commentsIn before ++ attributeComments gap value ++
        commentsIn behind ++ commentsOf back).map String.ofList := by
      rw [comments, now]
      simp [Body.innerPieces, rowPieces, commentsOf_attr]
    have has : (d.setVersion p.index v).comments =
        (commentsOf front ++ attributeComments gap value ++ commentsOf back).map String.ofList := by
      rw [comments, later]
      split <;>
        simp [Body.innerPieces, linesPieces, commentsOf_firstAttribute, commentsOf_keptAttribute]
    refine .inr ⟨before, behind, k, gap, value, differs, rfl, rfl, ⟨_, _, _, had, has⟩, ?_⟩
    rw [had, has]
    constructor
    · intro same
      -- The lost comments are missing in the number of all comments.
      have count := congrArg List.length same
      simp only [List.length_map, List.length_append] at count
      exact ⟨List.length_eq_zero_iff.mp (by omega), List.length_eq_zero_iff.mp (by omega)⟩
    · rintro ⟨none, none'⟩
      simp [none, none']

/-- A module on one line with comments around its source. -/
def Document.sourceBetweenComments : String :=
  "module \"a\" \x7b /* c */ source = \"s\" /* d */ \x7d\n"

/-- A module on one line with a comment inside its source. -/
def Document.sourceAroundComment : String :=
  "module \"a\" \x7b source = /* c */ \"s\" \x7d\n"

/-- Whether there are structures and no comment stands in front of one or behind it. -/
def Hcl.keepsComments (items : List Structure) : Bool :=
  !items.isEmpty && items.all fun s =>
    (commentsIn (s.layout.before.getD []) ++ commentsIn (s.layout.after.getD [])).isEmpty

theorem Document.setVersion_spreads_sourceBetweenComments :
    (∃ (d : Document) (p : BlockPlace) (body : Body),
      (read? sourceBetweenComments = some d ∧ d.body.items = p.items body ∧
        versionAttribute? p.word = some versionKey ∧ body.frame.oneLine = true ∧
        valueAmong? versionKey body.items = none) ∧
      ∃ body' head tail, (d.setVersion p.index "5.0").body = ⟨d.body.frame, p.items body'⟩ ∧
        d.text = String.ofList (head ++ '{' :: body.innerChars ++ '}' :: tail) ∧
        (d.setVersion p.index "5.0").text =
          String.ofList (head ++ '{' :: body'.innerChars ++ '}' :: tail)) ∧
    ∃ (d : Document) (p : BlockPlace) (body : Body),
      (read? sourceAroundComment = some d ∧ d.body.items = p.items body ∧
        versionAttribute? p.word = some versionKey ∧ body.frame.oneLine = true ∧
        valueAmong? versionKey body.items = none) ∧
      d.comments = ["/* c */"] ∧ (d.setVersion p.index "5.0").comments = ["/* c */"] := by
  constructor
  · obtain ⟨d, p, body, read, split, holds, oneLine, missing, -⟩ :=
      exists_of_outline sourceBetweenComments true (fun _ => true) (by decide +kernel)
    obtain ⟨-, body', head, tail, written, now, later, -⟩ :=
      setVersion_spreads read split holds oneLine missing "5.0"
    exact ⟨d, p, body, ⟨read, split, holds, oneLine, missing⟩, body', head, tail, written, now,
      later⟩
  · obtain ⟨d, p, body, read, split, holds, oneLine, missing, keeps⟩ :=
      exists_of_outline sourceAroundComment true keepsComments (by decide +kernel)
    have had : (read? sourceAroundComment).map comments = some ["/* c */"] := by decide +kernel
    rw [read, Option.map_some, Option.some.injEq] at had
    obtain ⟨-, -, -, -, -, -, -, ⟨closing, rfl, -, -⟩ | ⟨_, _, _, _, _, -, rfl, -, -, same⟩⟩ :=
      setVersion_spreads read split holds oneLine missing "5.0"
    · cases keeps
    · have alone :=
        same.mpr (by simpa [keepsComments, Structure.layout, Layout.written] using keeps)
      exact ⟨d, p, _, ⟨read, split, holds, oneLine, missing⟩, had, alone.trans had⟩

/-- Both comments get lost when a version is added. -/
theorem Document.setVersion_dropsComments :
    ∃ d, read? sourceBetweenComments = some d ∧ d.comments = ["/* c */", "/* d */"] ∧
      (d.setVersion 0 "5.0").comments = [] ∧
      (d.setVersion 0 "5.0").text =
        "module \"a\" \x7b\n  source = \"s\"\n  version = \"5.0\"\n\x7d\n" := by
  have evaluated : (read? sourceBetweenComments).map (fun d =>
      (d.comments, (d.setVersion 0 "5.0").comments, (d.setVersion 0 "5.0").text)) =
      some (["/* c */", "/* d */"], [],
        "module \"a\" \x7b\n  source = \"s\"\n  version = \"5.0\"\n\x7d\n") := by
    decide +kernel
  obtain ⟨d, read, all⟩ := Option.map_eq_some_iff.mp evaluated
  simp only [Prod.mk.injEq] at all
  exact ⟨d, read, all⟩

end TerraformPins
