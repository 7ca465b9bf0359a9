import TerraformPins.Proofs.Hcl.Template

/-!
# Replaying heredocs

The lines of a heredoc end in front of the first line end with the closing word behind it. Whether
there is one can be seen without looking behind the closing word. The common indentation is taken
from the lines and put back; both change only blanks, and what is put back are spaces.

## Main results

* `Indent.weight_indent`, `Indent.weight_strip_le` — indentation does not make a heredoc heavier
* `Grammar.replays_heredoc` — a heredoc with lines is replayed
-/

namespace TerraformPins.Hcl

open Scan

/-! ### Indentation -/

namespace Indent

/-- Joined lines weigh what they weigh together, and a line feed between two of them. -/
theorem weight_joinWith (pieces : List Chars) :
    weight (joinWith ['\n'] pieces) = total weight pieces + 8 * (pieces.length - 1) := by
  induction pieces with
  | nil => rfl
  | cons piece more ih =>
    cases more with
    | nil => simp [joinWith]
    | cons next more =>
      have newline : weight ['\n'] = 8 := by decide
      simp only [joinWith, weight_append, ih, newline, total_cons, List.length_cons]
      omega

theorem weight_eq_total_lines (cs : Chars) :
    weight cs = total weight (lines cs) + 8 * ((lines cs).length - 1) := by
  rw [← weight_joinWith]
  exact congrArg weight (joinWith_splitAll '\n' cs).symm

/-- Spaces weigh nothing, so indenting changes no weight. -/
theorem weight_indent (n : Nat) (cs : Chars) : weight (indent n cs) = weight cs := by
  have spaces : weight (List.replicate n ' ') = 0 := by
    induction n with
    | zero => rfl
    | succ n ih => simp [List.replicate_succ, ih, heft]
  have each : ∀ line, weight (if isEmptyLine line then line else List.replicate n ' ' ++ line) =
      weight line := by
    intro line
    split
    · rfl
    · simp [spaces]
  have same : ∀ rest : List Chars, total weight (rest.map fun line =>
      if isEmptyLine line then line else List.replicate n ' ' ++ line) = total weight rest := by
    intro rest
    induction rest with
    | nil => rfl
    | cons line rest ih => rw [List.map_cons, total_cons, total_cons, each, ih]
  rw [indent, weight_joinWith, weight_eq_total_lines cs, List.length_map, same]

/-- Dropping blanks makes no line heavier. -/
theorem weight_dropBlanks_le (n : Nat) (line : Chars) :
    weight (dropBlanks n line) ≤ weight line := by
  induction n generalizing line with
  | zero => simp [dropBlanks]
  | succ n ih =>
    cases line with
    | nil => simp [dropBlanks]
    | cons c line =>
      rw [dropBlanks]
      split
      · have := ih line
        rw [weight_cons]
        omega
      · exact Nat.le_refl _

theorem weight_stripLiteral_le (n : Nat) (inside : Bool) (cs : Chars) :
    weight (stripLiteral n inside cs) ≤ weight cs := by
  have cut : ∀ line, weight (if isEmptyLine line then line else dropBlanks n line) ≤
      weight line := by
    intro line
    split
    · exact Nat.le_refl _
    · exact weight_dropBlanks_le n line
  have more : ∀ rest : List Chars,
      total weight (rest.map fun line => if isEmptyLine line then line else dropBlanks n line) ≤
        total weight rest := by
    intro rest
    induction rest with
    | nil => exact Nat.le_refl _
    | cons line rest ih =>
      have := cut line
      simp only [List.map_cons, total_cons]
      omega
  -- The first line is treated on its own, since it may stand behind a directive.
  rw [stripLiteral, weight_eq_total_lines cs]
  cases lines cs with
  | nil => simp
  | cons first rest =>
    have firstLine : weight (if inside then first else
        if isEmptyLine first then first else dropBlanks n first) ≤ weight first := by
      split
      · exact Nat.le_refl _
      · exact cut first
    have := more rest
    simp only [weight_joinWith, total_cons, List.length_cons, List.length_map]
    omega

/-- Stripping the lines of a heredoc makes it no heavier. -/
theorem weight_strip_le (n : Nat) (inside : Bool) (parts : List Part) :
    weight (partsChars false (strip n inside parts)) ≤ weight (partsChars false parts) := by
  fun_induction strip n inside parts with
  | case1 => exact Nat.le_refl _
  | case2 inside cs rest ih =>
    have := weight_stripLiteral_le n inside cs
    simp only [partsChars, Part.chars, weight_append]
    simp
    omega
  | case3 inside part rest _ ih =>
    simp only [partsChars, weight_append]
    omega

/-- Parts are whole if they are whole without their indentation. -/
theorem whole_of_strip {n : Nat} {inside : Bool} {parts : List Part}
    (whole : WholeParts (strip n inside parts)) : WholeParts parts := by
  fun_induction strip n inside parts with
  | case1 => exact whole
  | case2 inside cs rest ih => exact ⟨trivial, ih whole.2⟩
  | case3 inside part rest _ ih => exact ⟨whole.1, ih whole.2⟩

theorem ne_nil_of_strip {n : Nat} {inside : Bool} {parts : List Part}
    (nonempty : strip n inside parts ≠ []) : parts ≠ [] := by
  rintro rfl
  exact nonempty rfl

end Indent

namespace Grammar

/-! ### The text up to the closing word -/

/-- A word as it is read. -/
def IsWord (word : Chars) : Prop :=
  word ≠ [] ∧ ∀ c ∈ word, isWordPart c = true

/-- The word of a heredoc is a name. -/
theorem isWord_of_identifier {cs word r : Chars} (run : identifier cs = some (word, r)) :
    IsWord word := by
  obtain ⟨c, t, first, more⟩ := bind_eq_some_iff.mp run
  obtain ⟨start, rfl⟩ := one_eq_some_iff.mp first
  obtain ⟨w, u, taken, last⟩ := bind_eq_some_iff.mp more
  cases last
  obtain ⟨-, all, -⟩ := run_eq_some_iff.mp taken
  refine ⟨by simp, fun d member => ?_⟩
  rcases List.mem_cons.mp member with rfl | inside
  · simp only [isWordStart, isWordPart, Char.isAlphanum, Bool.or_eq_true] at start ⊢
    exact .inl (start.imp_left .inl)
  · exact all d inside

/-- A line end closes a heredoc if its word is next, behind spaces. -/
theorem closes_iff {word cs : Chars} :
    closes word cs = true ↔ ∃ le u, (le = ['\n'] ∨ le = ['\r', '\n']) ∧ cs = le ++ u ∧
      word <+: u.dropWhile Blank.isSpace := by
  rw [closes]
  cases ended : Blank.lineEnd cs with
  | none =>
    refine ⟨nofun, ?_⟩
    rintro ⟨le, u, which, split, -⟩
    rw [Blank.lineEnd_eq_some_iff.mpr ⟨which, split⟩] at ended
    cases ended
  | some x =>
    obtain ⟨le, u⟩ := x
    obtain ⟨which, rfl⟩ := Blank.lineEnd_eq_some_iff.mp ended
    simp only [List.isPrefixOf_iff_prefix]
    refine ⟨fun h => ⟨le, u, which, rfl, h⟩, ?_⟩
    rintro ⟨le', u', which', split, h⟩
    rw [split, Blank.lineEnd_eq_some_iff.mpr ⟨which', rfl⟩] at ended
    cases ended
    exact h

/-- Two rests behind the text of a heredoc: the same mark, or the line end in front of the closing
word. -/
def HeredocMeets (word r r' : Chars) : Prop :=
  (∃ c t t', (c = '$' ∨ c = '%') ∧ r = c :: '{' :: t ∧ r' = c :: '{' :: t') ∨
    (closes word r = true ∧ closes word r' = true ∧ r.head? = r'.head?)

/-- Two rests that end a literal of a heredoc begin with the same character or the same marker. -/
theorem HeredocMeets.sharp {word r r' : Chars} (h : HeredocMeets word r r') :
    Quoted.Sharp r r' := by
  rcases h with marked | ⟨closed, closed', same⟩
  · exact .inr marked
  · obtain ⟨le, u, which, rfl, -⟩ := closes_iff.mp closed
    obtain ⟨le', u', which', rfl, -⟩ := closes_iff.mp closed'
    rcases which with rfl | rfl <;> rcases which' with rfl | rfl
    · exact .inl ⟨'\n', u, u', by decide, rfl, rfl⟩
    · simp at same
    · simp at same
    · exact .inl ⟨'\r', '\n' :: u, '\n' :: u', by decide, rfl, rfl⟩

/-- Neither blanks nor words go on into such a rest. -/
theorem HeredocMeets.head {word r r' : Chars} (h : HeredocMeets word r r') :
    ∃ c t t', r = c :: t ∧ r' = c :: t' ∧ Blank.isSpace c = false ∧ isWordPart c = false := by
  rcases h with ⟨c, t, t', mark, rfl, rfl⟩ | ⟨closed, closed', same⟩
  · exact ⟨c, _, _, rfl, rfl, by rcases mark with rfl | rfl <;> decide⟩
  · obtain ⟨le, u, which, rfl, -⟩ := closes_iff.mp closed
    obtain ⟨le', u', which', rfl, -⟩ := closes_iff.mp closed'
    rcases which with rfl | rfl <;> rcases which' with rfl | rfl
    · exact ⟨'\n', u, u', rfl, rfl, by decide⟩
    · simp at same
    · simp at same
    · exact ⟨'\r', _, _, rfl, rfl, by decide⟩

/-- A word ends in front of every character that it does not have. -/
theorem prefix_inside {word z t : Chars} {c : Char} (other : c ∉ word) (h : word <+: z ++ c :: t) :
    word <+: z := by
  induction z generalizing word with
  | nil =>
    cases word with
    | nil => exact List.nil_prefix
    | cons d word =>
      obtain ⟨rfl, -⟩ := List.cons_prefix_cons.mp h
      simp at other
  | cons d z ih =>
    cases word with
    | nil => exact List.nil_prefix
    | cons e word =>
      obtain ⟨rfl, more⟩ := List.cons_prefix_cons.mp h
      simp only [List.mem_cons, not_or] at other
      exact List.cons_prefix_cons.mpr ⟨rfl, ih other.2 more⟩

/-- Whether a word stands behind blanks does not depend on what is behind the next other
character. -/
theorem prefix_blanks {word y t t' : Chars} {c : Char} (ok : IsWord word)
    (space : Blank.isSpace c = false) (part : isWordPart c = false)
    (h : word <+: (y ++ c :: t').dropWhile Blank.isSpace) :
    word <+: (y ++ c :: t).dropWhile Blank.isSpace := by
  have other : c ∉ word := fun member => by simp [ok.2 c member] at part
  induction y with
  | nil =>
    simp only [List.nil_append, List.dropWhile_cons, space, Bool.false_eq_true, if_false] at h
    exact absurd (List.prefix_nil.mp (prefix_inside (z := []) other h)) ok.1
  | cons d y ih =>
    simp only [List.cons_append, List.dropWhile_cons] at h ⊢
    split at h
    case isTrue blank =>
      rw [if_pos blank]
      exact ih h
    case isFalse blank =>
      rw [if_neg blank]
      have inside : word <+: d :: y := prefix_inside other h
      exact inside.trans (List.prefix_append (d :: y) _)

/-- Whether the closing word follows is decided before the text of the heredoc ends. -/
theorem closes_inside {word x r r' : Chars} (ok : IsWord word) (meets : HeredocMeets word r r')
    (nonempty : x ≠ []) (closed : closes word (x ++ r') = true) : closes word (x ++ r) = true := by
  obtain ⟨c, t, t', same, same', space, part⟩ := meets.head
  obtain ⟨le, u, which, split, found⟩ := closes_iff.mp closed
  obtain ⟨d, y, rfl⟩ := List.exists_cons_of_ne_nil nonempty
  rcases which with rfl | rfl
  · obtain ⟨rfl, rfl⟩ := List.cons.inj split
    rw [same'] at found
    refine closes_iff.mpr ⟨['\n'], y ++ r, .inl rfl, rfl, ?_⟩
    rw [same]
    exact prefix_blanks ok space part found
  · obtain ⟨rfl, tail⟩ := List.cons.inj split
    cases y with
    | cons e y =>
      obtain ⟨rfl, rfl⟩ := List.cons.inj tail
      have found : word <+: (y ++ r').dropWhile Blank.isSpace := found
      rw [same'] at found
      refine closes_iff.mpr ⟨['\r', '\n'], y ++ r, .inr rfl, rfl, ?_⟩
      rw [same]
      exact prefix_blanks ok space part found
    | nil =>
      -- the line end of the rest goes with the carriage return
      have tail : r' = '\n' :: u := tail
      rcases meets with ⟨m, v, v', mark, -, rfl⟩ | ⟨closedToo, -, heads⟩
      · obtain ⟨rfl, -⟩ := List.cons.inj tail
        exact absurd mark (by decide)
      · obtain ⟨le', u', which', rfl, found'⟩ := closes_iff.mp closedToo
        rw [tail] at heads
        rcases which' with rfl | rfl
        · exact closes_iff.mpr ⟨['\r', '\n'], u', .inr rfl, rfl, found'⟩
        · simp at heads

/-- There is no text in front of the line end that closes a heredoc. -/
theorem heredocText_of_closes {word cs : Chars} (closed : closes word cs = true) :
    heredocText word cs = ([], cs) := by
  obtain ⟨le, u, which, rfl, -⟩ := closes_iff.mp closed
  rcases which with rfl | rfl
  all_goals
    simp only [List.cons_append, List.nil_append] at closed ⊢
    rw [heredocText]
    · rw [if_pos closed]
    all_goals simp

/-- The mark of a directive ends the text, and so does a rest that meets it. -/
theorem heredocText_of_marked {word t r' : Chars} {c : Char} (mark : c = '$' ∨ c = '%')
    (meets : HeredocMeets word (c :: '{' :: t) r') : heredocText word r' = ([], r') := by
  obtain ⟨u, rfl⟩ : ∃ u, r' = c :: '{' :: u := by
    rcases meets with ⟨d, v, v', -, same, rfl⟩ | ⟨closed, -, -⟩
    · obtain ⟨rfl, -⟩ := List.cons.inj same
      exact ⟨v', rfl⟩
    · obtain ⟨le, v, which, same, -⟩ := closes_iff.mp closed
      rcases which with rfl | rfl
      · obtain ⟨rfl, -⟩ := List.cons.inj same
        exact absurd mark (by decide)
      · obtain ⟨rfl, -⟩ := List.cons.inj same
        exact absurd mark (by decide)
  rcases mark with rfl | rfl <;> rfl

/-- A character that begins no mark and stands in front of no closing word. -/
theorem heredocText_plain {word u : Chars} {c : Char} (dollar : ∀ v, c = '$' → u = '{' :: v → False)
    (percent : ∀ v, c = '%' → u = '{' :: v → False)
    (dollars : ∀ v, c = '$' → u = '$' :: '{' :: v → False)
    (percents : ∀ v, c = '%' → u = '%' :: '{' :: v → False)
    (stays : ¬ closes word (c :: u) = true) :
    heredocText word (c :: u) = (c :: (heredocText word u).1, (heredocText word u).2) := by
  rw [heredocText, if_neg stays]
  · exact dollar
  · exact percent
  · exact dollars
  · exact percents

/-- A character that stands for itself in front of the rest of a text does so in front of every
other rest that ends the text. -/
theorem heredocText_plain_again {word u r r' : Chars} {c : Char} (ok : IsWord word)
    (meets : HeredocMeets word r r') (dollar : ∀ v, c = '$' → u ++ r = '{' :: v → False)
    (percent : ∀ v, c = '%' → u ++ r = '{' :: v → False)
    (dollars : ∀ v, c = '$' → u ++ r = '$' :: '{' :: v → False)
    (percents : ∀ v, c = '%' → u ++ r = '%' :: '{' :: v → False)
    (stays : ¬ closes word (c :: (u ++ r)) = true) (again : heredocText word (u ++ r') = (u, r')) :
    heredocText word (c :: (u ++ r')) = (c :: u, r') := by
  -- The next one or two characters decide how `c` is read, and they are the same in front of both
  -- rests.
  have brace : ∀ v, u ++ r' = '{' :: v → ∃ v', u ++ r = '{' :: v' := by
    intro v front
    have first := meets.sharp.head u
    rw [front] at first
    cases same : u ++ r with
    | nil =>
      rw [same] at first
      cases first
    | cons d t =>
      rw [same] at first
      exact ⟨t, by rw [Option.some.inj first]⟩
  rw [heredocText_plain, again]
  · intro v mark front
    obtain ⟨v', same⟩ := brace v front
    exact dollar v' mark same
  · intro v mark front
    obtain ⟨v', same⟩ := brace v front
    exact percent v' mark same
  · intro v mark front
    obtain ⟨v', same⟩ := meets.sharp.mark (.inl rfl) front
    exact dollars v' mark same
  · intro v mark front
    obtain ⟨v', same⟩ := meets.sharp.mark (.inr rfl) front
    exact percents v' mark same
  · exact fun closed => stays (closes_inside (x := c :: u) ok meets (by simp) closed)

/-- The text of a heredoc is read again in front of a rest that ends it. -/
theorem heredocText_spec {word cs : Chars} (ok : IsWord word) {a r : Chars}
    (run : heredocText word cs = (a, r)) :
    heredocText word r = ([], r) ∧
      ∀ r', HeredocMeets word r r' → heredocText word (a ++ r') = (a, r') := by
  -- The text ends with the input, at a mark, or at a line with the word. A doubled mark and any
  -- other character are taken, and the rest decides.
  induction cs using heredocText.induct word generalizing a with
  | case1 =>
    cases run
    refine ⟨rfl, fun r' meets => ?_⟩
    obtain ⟨c, t, t', same, -⟩ := meets.head
    cases same
  | case2 t | case3 t =>
    cases run
    exact ⟨rfl, fun r' => heredocText_of_marked (by decide)⟩
  | case4 t taken rest inner ih | case5 t taken rest inner ih =>
    rw [heredocText, inner] at run
    cases run
    obtain ⟨stops, again⟩ := ih inner
    refine ⟨stops, fun r' meets => ?_⟩
    simp only [List.cons_append]
    rw [heredocText, again r' meets]
  | case6 c t dollar percent dollars percents closed =>
    rw [heredocText_of_closes closed] at run
    cases run
    refine ⟨heredocText_of_closes closed, fun r' meets => ?_⟩
    rcases meets with ⟨d, v, v', mark, same, -⟩ | ⟨-, closed', -⟩
    · obtain ⟨rfl, rfl⟩ := List.cons.inj same
      rcases mark with rfl | rfl
      · exact absurd rfl (dollar v rfl)
      · exact absurd rfl (percent v rfl)
    · exact heredocText_of_closes closed'
  | case7 c t dollar percent dollars percents closed taken rest inner ih =>
    rw [heredocText_plain dollar percent dollars percents closed, inner] at run
    cases run
    obtain ⟨stops, again⟩ := ih inner
    refine ⟨stops, fun r' meets => ?_⟩
    obtain rfl : t = taken ++ rest := by
      have split := heredocText_split word t
      rw [inner] at split
      exact split.symm
    exact heredocText_plain_again ok meets dollar percent dollars percents closed (again r' meets)

theorem heredocLiteral_eq_none {word cs : Chars} (h : heredocText word cs = ([], cs)) :
    heredocLiteral word cs = none := by
  rw [heredocLiteral, h]

/-- A literal in a heredoc is read again in front of a rest that ends it as well. -/
theorem literal_heredoc {word : Chars} (ok : IsWord word) (n : Nat) :
    Literal false n (HeredocMeets word) (heredocLiteral word) where
  replays := by
    intro cs a r run
    obtain ⟨found, nonempty⟩ := heredocLiteral_eq_some_iff.mp run
    obtain ⟨stops, again⟩ := heredocText_spec ok found
    have split := heredocText_split word cs
    rw [found] at split
    refine ⟨a, split.symm, fun _ =>
      ⟨by simp [Part.chars], fun _ _ => ⟨trivial, fun r' meets => ?_⟩⟩⟩
    exact heredocLiteral_eq_some_iff.mpr
      ⟨again r' (meets (heredocLiteral_eq_none stops)), nonempty⟩
  advances := by
    intro cs a r run
    obtain ⟨found, nonempty⟩ := heredocLiteral_eq_some_iff.mp run
    have split : a ++ r = cs := by
      have := heredocText_split word cs
      rwa [found] at this
    have := List.length_pos_iff.mpr nonempty
    rw [← split, List.length_append]
    omega
  marks c t t' mark := .inl ⟨c, t, t', mark, rfl, rfl⟩
  stops c t mark := heredocLiteral_eq_none (by rcases mark with rfl | rfl <;> rfl)

/-! ### Lines and fences -/

/-- The line end in front of the closing word belongs to the last part. -/
theorem weight_withLineEnd (lineEnd : Chars) (parts : List Part) :
    weight (partsChars false (withLineEnd lineEnd parts)) =
      weight (partsChars false parts) + weight lineEnd := by
  fun_induction withLineEnd lineEnd parts with
  | case1 => simp [partsChars, Part.chars]
  | case2 cs => simp [partsChars, Part.chars]
  | case3 part rest _ ih =>
    simp only [partsChars, weight_append, ih]
    omega

theorem whole_of_withLineEnd {lineEnd : Chars} {parts : List Part}
    (whole : WholeParts (withLineEnd lineEnd parts)) : WholeParts parts := by
  fun_induction withLineEnd lineEnd parts with
  | case1 => trivial
  | case2 cs => exact ⟨trivial, trivial⟩
  | case3 part rest _ ih => exact ⟨whole.1, ih whole.2⟩

/-- The gauge of the lines of a heredoc. -/
def linesGauge : Gauge (List Part × Chars) :=
  ⟨fun x => weight (partsChars false x.1) + weight x.2, fun x => x.1 ≠ [] ∧ WholeParts x.1⟩

/-- A word ends the blanks in front of it. -/
theorem run_isSpace {word b r : Chars} (ok : IsWord word) (all : ∀ c ∈ b, Blank.isSpace c = true)
    (front : word <+: r) : run Blank.isSpace (b ++ r) = some (b, r) := by
  refine run_append all fun c first => ?_
  obtain ⟨d, tail, rfl⟩ := List.exists_cons_of_ne_nil ok.1
  obtain ⟨u, rfl⟩ := front
  obtain rfl := Option.some.inj first
  have part := ok.2 d List.mem_cons_self
  simp only [Blank.isSpace, Bool.or_eq_false_iff, beq_eq_false_iff_ne, ne_eq]
  constructor <;> rintro rfl <;> revert part <;> decide

/-- A line end, blanks and the closing word close a heredoc. -/
theorem closes_of_lineEnd {word le b r : Chars} (ok : IsWord word)
    (which : le = ['\n'] ∨ le = ['\r', '\n']) (all : ∀ c ∈ b, Blank.isSpace c = true)
    (front : word <+: r) : closes word (le ++ (b ++ r)) = true := by
  have skipped := run_isSpace ok all front
  simp only [run_apply, Option.some.injEq, Prod.mk.injEq] at skipped
  exact closes_iff.mpr ⟨le, b ++ r, which, rfl, by rwa [skipped.2]⟩

/-- The lines of a heredoc end with a line end, and the blanks behind it are those of the closing
word. -/
theorem heredocLines_of_lineEnd {word le b r cs : Chars} {ps : List Part} (ok : IsWord word)
    (which : le = ['\n'] ∨ le = ['\r', '\n']) (all : ∀ c ∈ b, Blank.isSpace c = true)
    (front : word <+: r)
    (found : parts nested (heredocLiteral word) cs = some (ps, le ++ (b ++ r))) :
    heredocLines nested word cs = some ((withLineEnd le ps, b), r) := by
  have skipped := run_isSpace ok all front
  simp only [run_apply, Option.some.injEq, Prod.mk.injEq] at skipped
  have lineEnds : Blank.lineEnd (le ++ (b ++ r)) = some (le, b ++ r) :=
    Blank.lineEnd_eq_some_iff.mpr ⟨which, rfl⟩
  rw [heredocLines_apply, found, Option.bind_some]
  simp only [lineEnds, Option.elim_some, skipped]

/-- The lines of a heredoc are read again in front of its word. -/
theorem replays_heredocLines {n : Nat} {word : Chars} (ok : IsWord word)
    (h : ∀ newlines, Replays n 0 True Node.gauge Follow (nested newlines)) :
    Replays n 0 True linesGauge (fun r r' => word <+: r ∧ word <+: r')
      (heredocLines nested word) := by
  intro cs x rest taken
  rw [heredocLines_apply] at taken
  obtain ⟨⟨ps, t⟩, found, more⟩ := Option.bind_eq_some_iff.mp taken
  obtain ⟨w, rfl, replay⟩ :=
    replays_parts h (literal_heredoc ok) (shortens_heredocLiteral word) cs ps t found
  cases ended : Blank.lineEnd t with
  | none =>
    -- without a line end there are no lines
    rw [ended, Option.elim_none] at more
    split at more
    case isTrue => cases more
    case isFalse =>
      cases more
      refine ⟨_, List.takeWhile_append_dropWhile.symm, fun _ => ?_⟩
      exact ⟨by simp [linesGauge, partsChars], fun _ sound => absurd rfl sound.1⟩
  | some y =>
    obtain ⟨le, u⟩ := y
    rw [ended, Option.elim_some] at more
    cases more
    obtain ⟨which, split⟩ := Blank.lineEnd_eq_some_iff.mp ended
    obtain rfl : t = le ++ u := split
    generalize blanks : u.takeWhile Blank.isSpace = b
    have all : ∀ c ∈ b, Blank.isSpace c = true := by
      rw [← blanks]
      exact fun c member => List.all_eq_true.mp (List.all_takeWhile (l := u)) c member
    have whole : u = b ++ u.dropWhile Blank.isSpace := by
      rw [← blanks, List.takeWhile_append_dropWhile]
    generalize u.dropWhile Blank.isSpace = rest at whole
    subst whole
    refine ⟨w ++ (le ++ b), by simp, fun bound => ?_⟩
    simp only [List.length_append] at bound
    obtain ⟨heavy, again⟩ := replay (by omega)
    simp only [linesGauge, partsGauge, weight_withLineEnd, weight_append] at heavy again ⊢
    refine ⟨by omega, fun tight sound => ⟨trivial, fun rest' both => ?_⟩⟩
    obtain ⟨front, front'⟩ := both
    have closed (r : Chars) (front : word <+: r) := closes_of_lineEnd ok which all front
    have ends : PartsEnd (HeredocMeets word) (heredocLiteral word) (le ++ (b ++ rest))
        (le ++ (b ++ rest')) := by
      refine .inr ⟨.inr ⟨closed rest front, closed rest' front', ?_⟩, ?_, ?_⟩
      · rcases which with rfl | rfl <;> rfl
      · exact heredocLiteral_eq_none (heredocText_of_closes (closed rest' front'))
      · rintro c v (rfl | rfl) <;> rcases which with rfl | rfl <;> simp
    have same := (again (by omega) (whole_of_withLineEnd sound.2)).2 _ ends
    simp only [List.append_assoc] at same ⊢
    exact heredocLines_of_lineEnd ok which all front' same

/-- A line end, of whatever kind it is. -/
theorem replays_lineEnd (n : Nat) :
    Replays n 0 True (Gauge.fixed ['\n']) (fun _ _ => True) Blank.lineEnd := by
  intro cs a rest run
  obtain ⟨which, rfl⟩ := Blank.lineEnd_eq_some_iff.mp run
  refine ⟨a, rfl, fun _ => ⟨?_, fun _ _ => ⟨trivial, fun rest' _ => ?_⟩⟩⟩
  · rcases which with rfl | rfl <;> simp [Gauge.fixed]
  · exact Blank.lineEnd_eq_some_iff.mpr ⟨which, rfl⟩

/-- What is behind the opening mark of a heredoc and its dash. -/
theorem replays_fence {n credit : Nat} {claim : Prop} (dash : Bool)
    (h : ∀ newlines, Replays n 0 True Node.gauge Follow (nested newlines))
    (paid : credit = 2 + if dash then 1 else 0) (holds : claim) :
    Replays n credit claim Node.gauge (fun _ _ => True) (do
      let word ← identifier
      let _ ← Blank.lineEnd
      let (parts, closing) ← heredocLines nested word
      let _ ← exactly word
      match if dash then Indent.common? parts else none with
      | some k => pure (.heredoc ⟨some k, word, closing⟩ (Indent.strip k false parts))
      | none => pure (.heredoc ⟨none, word, closing⟩ parts)) := by
  refine Replays.bind_of_run (replays_identifier n) (fun word cs t read => ?_)
    fun word node w rest rest' run run' _ => ?_
  · have ok := isWord_of_identifier read
    refine Replays.bind (replays_lineEnd n) (fun _ => ?_) fun _ _ _ _ _ _ _ _ => trivial
    refine Replays.bind (replays_heredocLines ok h) (fun found => ?_)
      fun found node w rest rest' run run' _ => ?_
    · obtain ⟨parts, closing⟩ := found
      refine Replays.bind (Replays.exactly n word) (fun _ => ?_) fun _ _ _ _ _ _ _ _ => trivial
      have newline : weight ['\n'] = 8 := by decide
      split
      case h_1 k common =>
        -- Only behind a dash is indentation taken away, and the dash pays for its mark.
        have indented : dash = true := by
          cases dash with
          | true => rfl
          | false => cases common
        have light := Indent.weight_strip_le k false parts
        refine Replays.pure ?_ fun _ whole => ?_
        · simp only [Node.gauge, Node.chars, Gauge.text, Gauge.fixed, linesGauge, weight_append,
            Indent.weight_indent, Option.isSome_some, if_true, newline, paid, indented]
          have marks : weight ['<', '<'] = 2 ∧ weight ['-'] = 1 := by decide
          omega
        · exact ⟨⟨⟨⟨holds, trivial⟩, trivial⟩, Indent.ne_nil_of_strip whole.1,
            Indent.whole_of_strip whole.2⟩, trivial⟩
      case h_2 =>
        refine Replays.pure ?_ fun _ whole => ⟨⟨⟨⟨holds, trivial⟩, trivial⟩, whole⟩, trivial⟩
        simp only [Node.gauge, Node.chars, Gauge.text, Gauge.fixed, linesGauge, weight_append,
          Option.isSome_none, Bool.false_eq_true, if_false, weight_nil, newline, paid]
        have marks : weight ['<', '<'] = 2 := by decide
        omega
    · obtain ⟨t, same, -⟩ := exactly_bind_eq_some_iff.mp run
      obtain ⟨t', same', -⟩ := exactly_bind_eq_some_iff.mp run'
      rw [same, same']
      exact ⟨List.prefix_append word t, List.prefix_append word t'⟩
  · obtain ⟨le, t, ended, -⟩ := bind_eq_some_iff.mp run'
    obtain ⟨which, same⟩ := Blank.lineEnd_eq_some_iff.mp ended
    rw [same]
    refine .inr fun c first => ?_
    rcases which with rfl | rfl <;> obtain rfl := Option.some.inj first <;> decide

/-- A heredoc is read again whatever is behind it. -/
theorem replays_heredoc {n : Nat}
    (h : ∀ newlines, Replays n 0 True Node.gauge Follow (nested newlines)) :
    Replays (n + 1) 0 True Node.gauge (fun _ _ => True) (heredoc nested) := by
  have marks : weight ['<', '<'] = 2 ∧ weight ['-'] = 1 := by decide
  refine Replays.exactly_bind (Replays.optional_bind (Replays.exactly n ['-']) (fun dash => ?_) ?_
    (fun _ _ _ _ _ _ _ _ => trivial) fun node w rest rest' _ _ run' _ => ?_)
  · exact replays_fence true h (by simp [Gauge.fixed, marks]) ⟨trivial, trivial⟩
  · exact replays_fence false h (by simp [marks]) trivial
  · obtain ⟨word, t, first, -⟩ := bind_eq_some_iff.mp run'
    obtain ⟨c, u, start, same⟩ := leads_identifier _ _ first
    rw [same]
    refine exactly_cons_eq_none ?_
    rintro rfl
    revert start
    decide

end Grammar

end TerraformPins.Hcl
