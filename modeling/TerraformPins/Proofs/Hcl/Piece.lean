import TerraformPins.Document
import TerraformPins.Proofs.Text

/-!
# The pieces of a printed text

A printed text is made of the blank space that is stored in the tree and of everything else. Here it
is printed in pieces that say which of the two they are. Joined they are the printed text, and the
comments of a document are those that stand in its blank pieces, in the order of the text.

The lines of an indented heredoc get their blanks after its parts have been printed. So these blanks
are put into the pieces: into those that begin a line, whatever kind they are of.

## Main definitions

* `commentsIn` — the comments in blank space
* `Piece` — a piece of a printed text
* `Expr.pieces`, `Structure.pieces`, `Body.pieces` — the text of a tree in pieces
* `Document.comments` — the comments of a document

## Main results

* `Body.joined_pieces` — the pieces of a document are its text
-/

namespace TerraformPins

namespace Hcl

/-! ### Comments -/

/-- Where one is in blank space: outside of comments, or in a comment of which some is read. -/
inductive Spot where
  | outside
  | block (taken : Chars)
  | line (taken : Chars)

/-- The comments in blank space from some spot on. -/
def commentsFrom : Spot → Chars → List Chars
  | .outside, '/' :: '*' :: cs => commentsFrom (.block ['/', '*']) cs
  | .outside, '/' :: '/' :: cs => commentsFrom (.line ['/', '/']) cs
  | .outside, '#' :: cs => commentsFrom (.line ['#']) cs
  | .outside, _ :: cs => commentsFrom .outside cs
  | .outside, [] => []
  | .block taken, '*' :: '/' :: cs => (taken ++ ['*', '/']) :: commentsFrom .outside cs
  | .block taken, c :: cs => commentsFrom (.block (taken ++ [c])) cs
  | .block taken, [] => [taken]
  | .line taken, c :: cs =>
    if c = '\n' ∨ c = '\r' then taken :: commentsFrom .outside cs
    else commentsFrom (.line (taken ++ [c])) cs
  | .line taken, [] => [taken]

/-- The comments in blank space. -/
def commentsIn (cs : Chars) : List Chars :=
  commentsFrom .outside cs

@[simp] theorem commentsIn_nil : commentsIn [] = [] := rfl

/-- There are no comments where nothing but blanks stands. -/
theorem commentsIn_of_blank {cs : Chars} (blank : ∀ c ∈ cs, isBlank c = true) :
    commentsIn cs = [] := by
  induction cs with
  | nil => rfl
  | cons c cs ih =>
    have slash : c ≠ '/' := by
      rintro rfl
      exact absurd (blank '/' List.mem_cons_self) (by decide)
    have hash : c ≠ '#' := by
      rintro rfl
      exact absurd (blank '#' List.mem_cons_self) (by decide)
    have skipped : commentsIn (c :: cs) = commentsIn cs := by
      unfold commentsIn
      rw [commentsFrom] <;> simp [slash, hash]
    rw [skipped, ih fun d inside => blank d (List.mem_cons_of_mem c inside)]

/-! ### Pieces -/

/-- A piece of a printed text. -/
inductive Piece where
  | solid (chars : Chars)
  | blank (chars : Chars)
  deriving DecidableEq, Repr

namespace Piece

/-- The text of a piece. -/
def chars : Piece → Chars
  | solid cs => cs
  | blank cs => cs

/-- The same kind of piece with another text. -/
def map (f : Chars → Chars) : Piece → Piece
  | solid cs => solid (f cs)
  | blank cs => blank (f cs)

/-- The comments in a piece. -/
def comments : Piece → List Chars
  | solid _ => []
  | blank cs => commentsIn cs

@[simp] theorem chars_solid (cs : Chars) : (solid cs).chars = cs := rfl

@[simp] theorem chars_blank (cs : Chars) : (blank cs).chars = cs := rfl

@[simp] theorem chars_map (f : Chars → Chars) (p : Piece) : (p.map f).chars = f p.chars := by
  cases p <;> rfl

@[simp] theorem comments_solid (cs : Chars) : (solid cs).comments = [] := rfl

@[simp] theorem comments_blank (cs : Chars) : (blank cs).comments = commentsIn cs := rfl

end Piece

/-- The text of some pieces. -/
def joined (ps : List Piece) : Chars :=
  ps.flatMap Piece.chars

/-- The comments of some pieces. -/
def commentsOf (ps : List Piece) : List Chars :=
  ps.flatMap Piece.comments

@[simp] theorem joined_nil : joined [] = [] := rfl

@[simp] theorem joined_cons (p : Piece) (ps : List Piece) :
    joined (p :: ps) = p.chars ++ joined ps := rfl

@[simp] theorem joined_append (ps qs : List Piece) : joined (ps ++ qs) = joined ps ++ joined qs :=
  List.flatMap_append

@[simp] theorem commentsOf_nil : commentsOf [] = [] := rfl

@[simp] theorem commentsOf_cons (p : Piece) (ps : List Piece) :
    commentsOf (p :: ps) = p.comments ++ commentsOf ps := rfl

@[simp] theorem commentsOf_append (ps qs : List Piece) :
    commentsOf (ps ++ qs) = commentsOf ps ++ commentsOf qs :=
  List.flatMap_append

/-! ### Indented pieces -/

namespace Indent

/-- Writes `n` spaces in front of each line of a text that is not empty. Whether the first line
begins here is said by `starts`; the last one goes on with `behind`. -/
def indentFrom (n : Nat) (starts : Bool) (behind : Chars) : Chars → Chars
  | [] => []
  | c :: cs =>
    (if starts && !isEmptyLine ((c :: cs ++ behind).takeWhile (· != '\n')) then List.replicate n ' '
      else []) ++ c :: indentFrom n (c == '\n') behind cs

/-- Whether a line begins behind a text. -/
def startsBehind (starts : Bool) (cs : Chars) : Bool :=
  cs.foldl (fun _ c => c == '\n') starts

/-- Writes `n` spaces in front of each line of some pieces. -/
def indentPieces (n : Nat) (starts : Bool) : List Piece → List Piece
  | [] => []
  | p :: ps =>
    p.map (indentFrom n starts (joined ps)) :: indentPieces n (startsBehind starts p.chars) ps

/-- A text is indented part by part: what is behind a part tells whether its last line is one of the
text, and the part in front tells where a line begins. -/
theorem indentFrom_append (n : Nat) (starts : Bool) (behind xs ys : Chars) :
    indentFrom n starts behind (xs ++ ys) =
      indentFrom n starts (ys ++ behind) xs ++ indentFrom n (startsBehind starts xs) behind ys := by
  induction xs generalizing starts with
  | nil => rfl
  | cons c xs ih => simp [indentFrom, startsBehind, ih]

/-- Indented pieces are joined to the indented text. -/
theorem joined_indentPieces (n : Nat) (starts : Bool) (ps : List Piece) :
    joined (indentPieces n starts ps) = indentFrom n starts [] (joined ps) := by
  induction ps generalizing starts with
  | nil => rfl
  | cons p ps ih =>
    rw [indentPieces, joined_cons, ih, joined_cons, indentFrom_append, Piece.chars_map,
      List.append_nil]

/-- A text is cut into its first line and the lines behind it. -/
theorem lines_cons (c : Char) (cs : Chars) :
    ∃ line more, lines cs = line :: more ∧ line = cs.takeWhile (· != '\n') ∧
      lines (c :: cs) = if c = '\n' then [] :: line :: more else (c :: line) :: more := by
  have front : ∀ cs : Chars, ∃ more, lines cs = cs.takeWhile (· != '\n') :: more := by
    intro cs
    induction cs with
    | nil => exact ⟨[], rfl⟩
    | cons d ds ih =>
      obtain ⟨more, same⟩ := ih
      by_cases ends : d = '\n'
      · exact ⟨_, by simp [lines, splitAll, show splitAll (· == '\n') ds = _ from same, ends]; rfl⟩
      · exact ⟨more, by simp [lines, splitAll, show splitAll (· == '\n') ds = _ from same, ends]⟩
  obtain ⟨more, same⟩ := front cs
  refine ⟨_, more, same, rfl, ?_⟩
  by_cases ends : c = '\n' <;>
    simp [lines, splitAll, show splitAll (· == '\n') cs = _ from same, ends]

/-- Something in front of the first of the joined texts stands in front of all. -/
theorem joinWith_cons_append (sep x y : Chars) (ys : List Chars) :
    joinWith sep ((x ++ y) :: ys) = x ++ joinWith sep (y :: ys) := by
  cases ys <;> simp [joinWith]

/-- A line with `n` spaces in front of it, unless it is empty. -/
def indentLine (n : Nat) (line : Chars) : Chars :=
  if isEmptyLine line then line else List.replicate n ' ' ++ line

/-- Indenting line by line is indenting from the front on. -/
theorem indent_eq (n : Nat) (cs : Chars) : indent n cs = indentFrom n true [] cs := by
  -- In the middle of a line the first piece is left alone.
  suffices general : ∀ starts line more, lines cs = line :: more → indentFrom n starts [] cs =
      joinWith ['\n'] ((if starts then indentLine n line else line) :: more.map (indentLine n)) by
    obtain ⟨line, more, same, -⟩ := lines_cons ' ' cs
    rw [general true line more same, indent, same]
    rfl
  induction cs with
  | nil =>
    rintro starts line more same
    obtain ⟨rfl, rfl⟩ := List.cons.inj (show [] :: [] = line :: more from same)
    cases starts <;> rfl
  | cons c cs ih =>
    rintro starts line more same
    obtain ⟨first, rest, here, isFirst, behind⟩ := lines_cons c cs
    rw [behind] at same
    rw [indentFrom, List.append_nil, ih (c == '\n') first rest here]
    by_cases ends : c = '\n'
    · -- The first line is empty, so no spaces are written in front of it.
      rw [if_pos ends] at same
      obtain ⟨rfl, rfl⟩ := List.cons.inj same
      subst ends
      cases starts <;> simp [isEmptyLine, indentLine, joinWith]
    · -- The character belongs to the first line, which goes on with `first`.
      rw [if_neg ends] at same
      obtain ⟨rfl, rfl⟩ := List.cons.inj same
      have whole : (c :: cs).takeWhile (· != '\n') = c :: first := by
        rw [isFirst, List.takeWhile_cons_of_pos (by simpa using ends)]
      rw [whole, show (c == '\n') = false by simpa using ends]
      cases starts with
      | false => exact (joinWith_cons_append _ [c] first _).symm
      | true =>
        by_cases empty : isEmptyLine (c :: first) = true
        · simpa [indentLine, empty] using (joinWith_cons_append ['\n'] [c] first _).symm
        · simpa [indentLine, empty] using
            (joinWith_cons_append ['\n'] (List.replicate n ' ' ++ [c]) first _).symm

end Indent

/-! ### The tree in pieces -/

/-- The pieces of something inside its layout. -/
def Layout.pieces (layout : Layout) (before : Chars) (inner : List Piece) : List Piece :=
  .blank (layout.before.getD before) :: inner ++ [.blank (layout.after.getD [])]

/-- The pieces of a word with the blank space around it. -/
def Word.pieces (w : Word) : List Piece :=
  [.blank w.before, .solid w.word, .blank w.after]

/-- The pieces of words with commas between them. -/
def wordsPieces (words : List Word) : List Piece :=
  joinWith [.solid [',']] (words.map Word.pieces)

/-- The pieces of a directive in a template. -/
def Marker.pieces (m : Marker) : List Piece :=
  .solid (['%', '{'] ++ stripChars m.strip.left) :: m.word.pieces ++
    [.solid (stripChars m.strip.right ++ ['}'])]

/-- The pieces of a label and the blank space behind it. -/
def Label.pieces (l : Label) : List Piece :=
  [.solid (if l.quoted then '"' :: Quoted.encode l.text ++ ['"'] else l.text), .blank l.after]

/-- The pieces of the head of a loop up to its source. -/
def loopPieces (lead : Chars) (words : List Word) : List Piece :=
  .blank lead :: .solid ['f', 'o', 'r'] :: wordsPieces words ++ [.solid ['i', 'n']]

mutual

/-- The pieces of an expression; `before` stands in front of it if nothing is written there. -/
def Expr.pieces (before : Chars) : Expr → List Piece
  | .mk layout node => layout.pieces before node.pieces

/-- The pieces of an expression without what is around it. -/
def Node.pieces : Node → List Piece
  | .text value => [.solid ('"' :: Quoted.encode value ++ ['"'])]
  | .number written => [.solid written]
  | .name word => [.solid word]
  | .template parts => .solid ['"'] :: partsPieces true parts ++ [.solid ['"']]
  | .heredoc fence parts =>
    .solid (['<', '<'] ++ (if fence.indent.isSome then ['-'] else []) ++ fence.word ++ ['\n']) ::
      (match fence.indent with
        | some n => Indent.indentPieces n true (partsPieces false parts)
        | none => partsPieces false parts) ++
      [.solid (fence.closing ++ fence.word)]
  | .list items finalComma closing =>
    .solid ['['] :: itemsPieces items ++
      [.solid (if finalComma then [','] else []), .blank closing, .solid [']']]
  | .object entries closing =>
    .solid ['{'] :: entriesPieces entries ++ [.blank closing, .solid ['}']]
  | .listFor lead words source value condition =>
    .solid ['['] :: loopPieces lead words ++ source.pieces [] ++ .solid [':'] :: value.pieces [] ++
      conditionPieces condition ++ [.solid [']']]
  | .objectFor lead words source key value group condition =>
    .solid ['{'] :: loopPieces lead words ++ source.pieces [] ++ .solid [':'] :: key.pieces [] ++
      .solid ['=', '>'] :: value.pieces [] ++
      (match group with
        | some after => [.solid ['.', '.', '.'], .blank after]
        | none => []) ++
      conditionPieces condition ++ [.solid ['}']]
  | .group inner => .solid ['('] :: inner.pieces [] ++ [.solid [')']]
  | .unary op operand => .solid op.chars :: operand.pieces []
  | .binary left op right => left.pieces [] ++ .solid op.chars :: right.pieces []
  | .conditional condition yes no =>
    condition.pieces [] ++ .solid ['?'] :: yes.pieces [] ++ .solid [':'] :: no.pieces []
  | .call function gap arguments ending closing =>
    .solid function :: .blank gap :: .solid ['('] :: itemsPieces arguments ++
      [.solid ending.chars, .blank closing, .solid [')']]
  | .select base steps => base.pieces [] ++ stepsPieces steps

/-- The pieces of the condition at the end of a loop. -/
def conditionPieces : Option Expr → List Piece
  | some e => .solid ['i', 'f'] :: e.pieces []
  | none => []

/-- The pieces of expressions with commas between them. -/
def itemsPieces : List Expr → List Piece
  | [] => []
  | e :: rest => e.pieces [] ++ moreItemsPieces rest

/-- The pieces of expressions with a comma in front of each. -/
def moreItemsPieces : List Expr → List Piece
  | [] => []
  | e :: rest => .solid [','] :: e.pieces [] ++ moreItemsPieces rest

/-- The pieces of the parts of a template. -/
def partsPieces (quoted : Bool) : List Part → List Piece
  | [] => []
  | part :: rest => part.pieces quoted ++ partsPieces quoted rest

/-- The pieces of a part of a template, between quotes or in a heredoc. -/
def Part.pieces (quoted : Bool) : Part → List Piece
  | .literal cs => [.solid (if quoted then Quoted.encode cs else cs)]
  | .interpolation strip value =>
    .solid (['$', '{'] ++ stripChars strip.left) :: value.pieces [] ++
      [.solid (stripChars strip.right ++ ['}'])]
  | .branch strip lead condition yes otherwise no finish =>
    .solid (['%', '{'] ++ stripChars strip.left) :: .blank lead :: .solid ['i', 'f'] ::
      condition.pieces [] ++ .solid (stripChars strip.right ++ ['}']) :: partsPieces quoted yes ++
      (match otherwise with
        | some marker => marker.pieces
        | none => []) ++
      partsPieces quoted no ++ finish.pieces
  | .loop strip lead words source body finish =>
    .solid (['%', '{'] ++ stripChars strip.left) :: loopPieces lead words ++ source.pieces [] ++
      .solid (stripChars strip.right ++ ['}']) :: partsPieces quoted body ++ finish.pieces

/-- The pieces of the entries of an object. -/
def entriesPieces : List Entry → List Piece
  | [] => []
  | entry :: rest => entry.pieces ++ entriesPieces rest

/-- The pieces of an entry of an object. -/
def Entry.pieces : Entry → List Piece
  | .mk key sign value stop =>
    entryKeyPieces key ++ .solid sign.chars :: value.pieces [' '] ++ [.solid stop.chars]

/-- The pieces of the key of an entry, with a blank behind it if nothing is written there. -/
def entryKeyPieces : Expr → List Piece
  | .mk layout node =>
    .blank (layout.before.getD []) :: node.pieces ++ [.blank (layout.after.getD [' '])]

/-- The pieces of the steps into a value. -/
def stepsPieces : List Step → List Piece
  | [] => []
  | step :: rest => step.pieces ++ stepsPieces rest

/-- The pieces of a step into a value. -/
def Step.pieces : Step → List Piece
  | .dot before gap target => [.blank before, .solid ['.'], .blank gap, .solid target]
  | .index before value => .blank before :: .solid ['['] :: value.pieces [] ++ [.solid [']']]
  | .star before left right =>
    [.blank before, .solid ['['], .blank left, .solid ['*'], .blank right, .solid [']']]

end

mutual

/-- The pieces of an attribute or a block, without the line end behind it. -/
def Structure.pieces : Structure → List Piece
  | .attr layout key gap value =>
    layout.pieces [] (.solid key :: .blank (gap.getD [' ']) :: .solid ['='] :: value.pieces [' '])
  | .block layout word gap labels frame items =>
    layout.pieces [] (.solid word :: .blank gap :: labels.flatMap Label.pieces ++
      .solid ['{'] :: .blank frame.opening ::
      (if frame.oneLine then rowPieces items
        else .solid ['\n'] :: linesPieces frame.lastLineEnds items) ++
      [.blank frame.closing, .solid ['}']])

/-- The pieces of structures on one line. -/
def rowPieces : List Structure → List Piece
  | [] => []
  | s :: rest => s.pieces ++ rowPieces rest

/-- The pieces of structures on lines of their own; `lastLineEnds` says whether the last line has a
line end. -/
def linesPieces (lastLineEnds : Bool) : List Structure → List Piece
  | [] => []
  | s :: rest =>
    s.pieces ++ .solid (if rest.isEmpty ∧ ¬ lastLineEnds then [] else ['\n']) ::
      linesPieces lastLineEnds rest

end

/-- The pieces of a document. -/
def Body.pieces (body : Body) : List Piece :=
  linesPieces body.frame.lastLineEnds body.items ++ [.blank body.frame.closing]

/-! ### The pieces are the text -/

/-- The pieces around something are joined to the text around it. -/
@[simp] theorem Layout.joined_pieces (layout : Layout) (before : Chars) (inner : List Piece) :
    joined (layout.pieces before inner) = layout.around before (joined inner) := by
  simp [Layout.pieces, Layout.around]

@[simp] theorem Word.joined_pieces (w : Word) : joined w.pieces = w.chars := by
  simp [Word.pieces, Word.chars]

/-- The words of a loop, each behind a comma. -/
@[simp] theorem joined_wordsPieces (words : List Word) :
    joined (wordsPieces words) = wordsChars words := by
  unfold wordsPieces wordsChars
  induction words with
  | nil => rfl
  | cons w words ih =>
    cases words with
    | nil => simp [joinWith]
    | cons v words => simp_all [joinWith]

/-- The pieces of the end marker of a template are joined to its text. -/
@[simp] theorem Marker.joined_pieces (m : Marker) : joined m.pieces = m.chars := by
  simp [Marker.pieces, Marker.chars]

@[simp] theorem Label.joined_pieces (l : Label) : joined l.pieces = l.chars := by
  simp [Label.pieces, Label.chars]

@[simp] theorem joined_labels (labels : List Label) :
    joined (labels.flatMap Label.pieces) = (labels.map Label.chars).flatten := by
  induction labels with
  | nil => rfl
  | cons l labels ih => simp [ih]

/-- The pieces of the head of a loop are joined to its text. -/
@[simp] theorem joined_loopPieces (lead : Chars) (words : List Word) :
    joined (loopPieces lead words) = loopChars lead words := by
  simp [loopPieces, loopChars]

mutual

/-- The pieces of an expression are joined to its text, by recursion along with all that an
expression is made of. -/
theorem Expr.joined_pieces (before : Chars) : ∀ e : Expr, joined (e.pieces before) = e.chars before
  | .mk layout node => by
    simp [Expr.pieces, Expr.chars, Node.joined_pieces node]

theorem Node.joined_pieces : ∀ node : Node, joined node.pieces = node.chars
  | .text value => by simp [Node.pieces, Node.chars]
  | .number written => by simp [Node.pieces, Node.chars]
  | .name word => by simp [Node.pieces, Node.chars]
  | .template parts => by simp [Node.pieces, Node.chars, joined_partsPieces true parts]
  | .heredoc ⟨indent, word, closing⟩ parts => by
    have inside := joined_partsPieces false parts
    cases indent with
    | none => simp [Node.pieces, Node.chars, inside]
    | some n =>
      simp [Node.pieces, Node.chars, Indent.joined_indentPieces, Indent.indent_eq, inside]
  | .list items finalComma closing => by
    simp [Node.pieces, Node.chars, joined_itemsPieces items]
  | .object entries closing => by simp [Node.pieces, Node.chars, joined_entriesPieces entries]
  | .listFor lead words source value condition => by
    simp [Node.pieces, Node.chars, Expr.joined_pieces [] source, Expr.joined_pieces [] value,
      joined_conditionPieces condition]
  | .objectFor lead words source key value group condition => by
    cases group <;>
      simp [Node.pieces, Node.chars, Expr.joined_pieces [] source, Expr.joined_pieces [] key,
        Expr.joined_pieces [] value, joined_conditionPieces condition]
  | .group inner => by simp [Node.pieces, Node.chars, Expr.joined_pieces [] inner]
  | .unary op operand => by simp [Node.pieces, Node.chars, Expr.joined_pieces [] operand]
  | .binary left op right => by
    simp [Node.pieces, Node.chars, Expr.joined_pieces [] left, Expr.joined_pieces [] right]
  | .conditional condition yes no => by
    simp [Node.pieces, Node.chars, Expr.joined_pieces [] condition, Expr.joined_pieces [] yes,
      Expr.joined_pieces [] no]
  | .call function gap arguments ending closing => by
    simp [Node.pieces, Node.chars, joined_itemsPieces arguments]
  | .select base steps => by
    simp [Node.pieces, Node.chars, Expr.joined_pieces [] base, joined_stepsPieces steps]

theorem joined_conditionPieces : ∀ condition : Option Expr,
    joined (conditionPieces condition) = conditionChars condition
  | some e => by simp [conditionPieces, conditionChars, Expr.joined_pieces [] e]
  | none => rfl

theorem joined_itemsPieces : ∀ items : List Expr, joined (itemsPieces items) = itemsChars items
  | [] => rfl
  | e :: rest => by
    simp [itemsPieces, itemsChars, Expr.joined_pieces [] e, joined_moreItemsPieces rest]

/-- The items behind the first one, each behind a comma. -/
theorem joined_moreItemsPieces : ∀ items : List Expr,
    joined (moreItemsPieces items) = moreItemsChars items
  | [] => rfl
  | e :: rest => by
    simp [moreItemsPieces, moreItemsChars, Expr.joined_pieces [] e, joined_moreItemsPieces rest]

/-- The parts of a template, in quotes or in a heredoc. -/
theorem joined_partsPieces (quoted : Bool) : ∀ parts : List Part,
    joined (partsPieces quoted parts) = partsChars quoted parts
  | [] => rfl
  | part :: rest => by
    simp [partsPieces, partsChars, Part.joined_pieces quoted part, joined_partsPieces quoted rest]

theorem Part.joined_pieces (quoted : Bool) : ∀ part : Part,
    joined (part.pieces quoted) = part.chars quoted
  | .literal cs => by simp [Part.pieces, Part.chars]
  | .interpolation strip value => by
    simp [Part.pieces, Part.chars, Expr.joined_pieces [] value]
  | .branch strip lead condition yes otherwise no finish => by
    cases otherwise <;>
      simp [Part.pieces, Part.chars, Expr.joined_pieces [] condition,
        joined_partsPieces quoted yes, joined_partsPieces quoted no]
  | .loop strip lead words source body finish => by
    simp [Part.pieces, Part.chars, Expr.joined_pieces [] source, joined_partsPieces quoted body]

theorem joined_entriesPieces : ∀ entries : List Entry,
    joined (entriesPieces entries) = entriesChars entries
  | [] => rfl
  | entry :: rest => by
    simp [entriesPieces, entriesChars, Entry.joined_pieces entry, joined_entriesPieces rest]

/-- An entry of an object: the key, the sign, the value and what ends it. -/
theorem Entry.joined_pieces : ∀ entry : Entry, joined entry.pieces = entry.chars
  | .mk key sign value stop => by
    simp [Entry.pieces, Entry.chars, joined_entryKeyPieces key, Expr.joined_pieces [' '] value]

theorem joined_entryKeyPieces : ∀ key : Expr, joined (entryKeyPieces key) = entryKeyChars key
  | .mk layout node => by simp [entryKeyPieces, entryKeyChars, Node.joined_pieces node]

theorem joined_stepsPieces : ∀ steps : List Step, joined (stepsPieces steps) = stepsChars steps
  | [] => rfl
  | step :: rest => by
    simp [stepsPieces, stepsChars, Step.joined_pieces step, joined_stepsPieces rest]

theorem Step.joined_pieces : ∀ step : Step, joined step.pieces = step.chars
  | .dot before gap target => by simp [Step.pieces, Step.chars]
  | .index before value => by simp [Step.pieces, Step.chars, Expr.joined_pieces [] value]
  | .star before left right => by simp [Step.pieces, Step.chars]

end

mutual

/-- The pieces of a structure are joined to its text. -/
theorem Structure.joined_pieces : ∀ s : Structure, joined s.pieces = s.chars
  | .attr layout key gap value => by
    simp [Structure.pieces, Structure.chars, Expr.joined_pieces [' '] value]
  | .block layout word gap labels ⟨opening, closing, oneLine, ends⟩ items => by
    have row := joined_rowPieces items
    have lines := joined_linesPieces ends items
    cases oneLine <;> simp [Structure.pieces, Structure.chars, row, lines]

theorem joined_rowPieces : ∀ items : List Structure, joined (rowPieces items) = rowChars items
  | [] => rfl
  | s :: rest => by
    simp [rowPieces, rowChars, Structure.joined_pieces s, joined_rowPieces rest]

/-- The structures of a body over lines, each with its line end. -/
theorem joined_linesPieces (ends : Bool) : ∀ items : List Structure,
    joined (linesPieces ends items) = linesChars ends items
  | [] => rfl
  | s :: rest => by
    simp [linesPieces, linesChars, Structure.joined_pieces s, joined_linesPieces ends rest]

end

/-- The pieces of a document are its text. -/
theorem Body.joined_pieces (body : Body) : joined body.pieces = body.chars := by
  simp [Body.pieces, Body.chars, joined_linesPieces]

end Hcl

/-- The comments of a document, in the order of the text. -/
def Document.comments (d : Document) : List String :=
  (Hcl.commentsOf d.body.pieces).map String.ofList

end TerraformPins
