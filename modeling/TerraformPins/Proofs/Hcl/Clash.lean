import Mathlib.Data.List.Forall2
import TerraformPins.Proofs.Hcl.Parsed

/-!
# Texts that clash

Two texts clash if they differ before either of them ends, so that they are told apart whatever
stands behind them. A version that is added to an object or to a block clashes with what was there:
where the new key begins, there was a key or a word other than this one, a comma less or a brace.

## Main definitions

* `Clash` — two texts that differ before either of them ends

## Main results

* `clash_setVersionEntry` — an object with a version added
* `clash_addAttribute` — a block with an attribute added
-/

namespace TerraformPins

open Hcl Document Scan Grammar Reader

/-- Two texts that differ before either of them ends. -/
def Clash (a b : Chars) : Prop :=
  ∀ t t', a ++ t ≠ b ++ t'

namespace Clash

variable {a b : Chars}

theorem append (h : Clash a b) (x y : Chars) : Clash (a ++ x) (b ++ y) := by
  intro t t' same
  rw [List.append_assoc, List.append_assoc] at same
  exact h _ _ same

theorem prepend (h : Clash a b) (x : Chars) : Clash (x ++ a) (x ++ b) := by
  intro t t' same
  rw [List.append_assoc, List.append_assoc] at same
  exact h _ _ (List.append_cancel_left same)

theorem cons (h : Clash a b) (c : Char) : Clash (c :: a) (c :: b) :=
  h.prepend [c]

theorem of_head {c d : Char} (ne : c ≠ d) : Clash (c :: a) (d :: b) := by
  intro t t' same
  exact ne (List.cons.inj same).1

/-- Behind blank space, what follows tells two texts apart. -/
theorem of_fills {c d : Char} {gap gap' : Chars} (filled : Blank.Fills true gap)
    (filled' : Blank.Fills true gap') (hard : Blank.soft true c = false)
    (hard' : Blank.soft true d = false) (h : Clash (c :: a) (d :: b)) :
    Clash (gap ++ c :: a) (gap' ++ d :: b) := by
  intro t t' same
  have firm (t : Chars) : Blank.Hard true (c :: a ++ t) := by
    rintro _ ⟨⟩
    exact hard
  have firm' (t : Chars) : Blank.Hard true (d :: b ++ t) := by
    rintro _ ⟨⟩
    exact hard'
  have behind := congrArg (Blank.skip true) same
  rw [List.append_assoc, List.append_assoc, Blank.skip_eq_of_gap (filled _ (firm t)),
    Blank.skip_eq_of_gap (filled' _ (firm' t'))] at behind
  exact h t t' behind

/-- Something that cannot be blank space, and blank space in front of something else. -/
theorem of_hard {c d : Char} {gap : Chars} (filled : Blank.Fills true gap)
    (hard : Blank.soft true c = false) (hard' : Blank.soft true d = false) (ne : c ≠ d) :
    Clash (c :: a) (gap ++ d :: b) :=
  of_fills (Blank.fills_nil true) filled hard hard' (of_head ne)

end Clash

theorem Encloses.clash {α : Type} {whole part : α → Chars} (encloses : Encloses whole part)
    {x y : α} (h : Clash (part y) (part x)) : Clash (whole y) (whole x) := by
  obtain ⟨before, after, split⟩ := encloses
  rw [split, split]
  exact (h.prepend before).append after after

/-- A value is the same, or its text tells that it is not. -/
def Shows {α : Type} (chars : α → Chars) (y x : α) : Prop :=
  y = x ∨ Clash (chars y) (chars x)

namespace Shows

variable {α : Type} {chars whole : α → Chars} {x y : α}

theorem of_encloses (h : Shows chars y x) (encloses : Encloses whole chars) : Shows whole y x :=
  h.imp id encloses.clash

/-- The first member that is not the same tells that a list is not. -/
theorem list {all : List α → Chars} (sep : Bool → Chars)
    (split : ∀ x xs, all (x :: xs) = chars x ++ (sep xs.isEmpty ++ all xs)) {xs ys : List α}
    (h : List.Forall₂ (Shows chars) ys xs) : Shows all ys xs := by
  induction h with
  | nil => exact .inl rfl
  | @cons y x ys xs first more ih =>
    rcases first with rfl | clash
    · -- The separator depends only on whether something follows, so it is the same on both sides.
      refine ih.imp (congrArg (y :: ·)) fun clash => ?_
      have empty : ys.isEmpty = xs.isEmpty := by
        cases more <;> rfl
      rw [split, split, empty]
      exact (clash.prepend _).prepend _
    · refine .inr ?_
      rw [split, split]
      exact clash.append _ _

end Shows

namespace Hcl

theorem shows_row {xs ys : List Structure} (h : List.Forall₂ (Shows Structure.chars) ys xs) :
    Shows rowChars ys xs :=
  .list (fun _ => []) (fun _ _ => rfl) h

theorem shows_lines {xs ys : List Structure} (h : List.Forall₂ (Shows Structure.chars) ys xs)
    (ends : Bool) : Shows (linesChars ends) ys xs := by
  refine .list (fun last => if last ∧ ¬ ends then [] else ['\n']) (fun x xs => ?_) h
  rw [linesChars, List.append_assoc]

theorem shows_items {xs ys : List Structure} (h : List.Forall₂ (Shows Structure.chars) ys xs)
    (frame : Frame) : Shows (fun items => Body.innerChars ⟨frame, items⟩) ys xs := by
  cases row : frame.oneLine with
  | true =>
    refine (shows_row h).of_encloses ⟨frame.opening, frame.closing, fun items => ?_⟩
    simp [Body.innerChars, row]
  | false =>
    refine (shows_lines h frame.lastLineEnds).of_encloses
      ⟨frame.opening ++ ['\n'], frame.closing, fun items => ?_⟩
    simp [Body.innerChars, row]

/-! ### Objects -/

theorem soft_of_wordStart {c : Char} (start : isWordStart c = true) : Blank.soft true c = false :=
  hard_of_isWordStart start [] c rfl

theorem entriesChars_append (entries more : List Entry) :
    entriesChars (entries ++ more) = entriesChars entries ++ entriesChars more := by
  induction entries with
  | nil => rfl
  | cons e rest ih => simp [entriesChars, ih]

/-- The entries in front of an added one stay as they are, unless the last one ended at the
brace. -/
theorem settleLast_cases (entries : List Entry) : settleLast entries = entries ∨
    ∃ init key sign value, entries = init ++ [.mk key sign value .brace] := by
  rcases List.eq_nil_or_concat entries with rfl | ⟨init, ⟨key, sign, value, stop⟩, rfl⟩
  · exact .inl rfl
  · rw [List.concat_eq_append, settleLast_concat]
    cases stop with
    | brace => exact .inr ⟨init, key, sign, value, rfl⟩
    | newline => exact .inl rfl
    | comma => exact .inl rfl

/-- An added entry begins with its key, behind blank space. -/
theorem chars_addedEntry {entries : List Entry}
    (placed : ∀ e ∈ entries, Blank.Fills true (e.key.layout.before.getD [])) (value : Chars) :
    ∃ gap x, Blank.Fills true gap ∧
      (addedEntry entries.getLast? value).chars = gap ++ (versionKey ++ x) := by
  have split (gap : Option Chars) (sign : Sign) (e : Expr) (stop : Stop) :
      (Entry.mk (.mk ⟨gap, none⟩ (.name versionKey)) sign e stop).chars =
        gap.getD [] ++ (versionKey ++ (' ' :: (sign.chars ++ e.chars [' '] ++ stop.chars))) := by
    simp [Entry.chars, entryKeyChars, Node.chars]
  cases found : entries.getLast? with
  | none => exact ⟨[], _, Blank.fills_nil true, split none _ _ _⟩
  | some last =>
    have filled := placed last (List.mem_of_getLast? found)
    obtain ⟨key, sign, e, stop⟩ := last
    cases stop with
    | newline => exact ⟨_, _, fills_indentation filled, split _ _ _ _⟩
    | comma => exact ⟨_, _, filled, split _ _ _ _⟩
    | brace => exact ⟨_, _, filled, split _ _ _ _⟩

/-- Blank space in front of a brace does not begin with a comma. -/
theorem clash_comma {after closing : Chars} (filled : Blank.Fills false after)
    (closed : Blank.Fills true closing) (x y : Chars) :
    Clash (',' :: x) (after ++ (closing ++ '}' :: y)) := by
  intro t t' same
  cases after with
  | cons c after =>
    -- Blank space does not begin with a comma.
    have soft : Blank.soft false c = true := Blank.soft_of_gap (filled [] nofun)
    obtain rfl : ',' = c := (List.cons.inj same).1
    exact absurd soft (by decide)
  | nil => exact Clash.of_hard closed (by decide) (by decide) (by decide) _ _ same

/-- An object to which a version is added. -/
theorem clash_setVersionEntry {entries : List Entry} {closing : Chars}
    (laid : (Node.object entries closing).Laid) (missing : valueAt? versionKey entries = none)
    (value : Chars) : Clash (Node.object (setVersionEntry entries value) closing).chars
      (Node.object entries closing).chars := by
  obtain ⟨closed, each⟩ := laid entries closing rfl
  obtain ⟨gap, x, filled, added⟩ := chars_addedEntry (fun e member => (each e member).1) value
  rw [setVersionEntry_eq_append missing]
  simp only [Node.chars, entriesChars_append, entriesChars, added, List.append_assoc,
    List.cons_append, List.append_nil]
  refine Clash.cons ?_ '{'
  rcases settleLast_cases entries with same | ⟨init, key, sign, ⟨around, node⟩, rfl⟩
  · -- The new key stands where the brace was.
    rw [same]
    exact .prepend (.of_fills filled closed (by decide) (by decide) (.of_head (by decide))) _
  · obtain ⟨-, ended⟩ := each _ (List.mem_append_right _ List.mem_cons_self)
    have after : Blank.Fills false (around.after.getD []) := ended rfl
    have settled : (Entry.mk key sign (.mk around node) .brace).settle =
        .mk key sign (.mk ⟨around.before, some []⟩ node) .comma := rfl
    -- The comma stands where the entry ended before.
    have comma := clash_comma after closed (gap ++ (versionKey ++ x) ++ (closing ++ ['}'])) []
    have whole := comma.prepend (entriesChars init ++ (entryKeyChars key ++ (sign.chars ++
      (around.before.getD [' '] ++ node.chars))))
    simpa [settleLast_concat, settled, entriesChars_append, entriesChars, Entry.chars, Expr.chars,
      Layout.around, Stop.chars] using whole

/-! ### Blocks -/

/-- A structure that gives a word no value does not begin with this word and a sign of equality. -/
theorem not_begins_of_parsed {s : Structure} (parsed : s.Parsed) {key : Chars} (named : Named key)
    (missing : s.valueOf? key = none) (t r : Chars) :
    s.bareChars ++ t ≠ key ++ ' ' :: '=' :: r := by
  intro same
  have ended : EndsName (' ' :: '=' :: r) := by
    rintro _ ⟨⟩
    decide
  have first := named _ ended
  rw [← same] at first
  -- The same text is read as the first word of the structure, so this word is the key.
  cases s with
  | attr layout k gap value =>
    obtain ⟨named', filled⟩ := parsed
    have split : (Structure.attr layout k gap value).bareChars ++ t =
        k ++ (gap.getD [' '] ++ '=' :: (value.chars [' '] ++ t)) := by
      simp [Structure.bareChars]
    have ended' : EndsName (gap.getD [' '] ++ '=' :: (value.chars [' '] ++ t)) := by
      refine endsName_of_fills filled ?_ ?_ <;> rintro _ ⟨⟩ <;> decide
    rw [split, named' _ ended'] at first
    obtain rfl := (Prod.mk.inj (Option.some.inj first)).1
    simp [Structure.valueOf?] at missing
  | block layout word gap labels frame items =>
    obtain ⟨named', filled, ends, behind⟩ := parsed.headed
    let inner := Body.innerChars ⟨frame, items⟩ ++ '}' :: t
    have split : (Structure.block layout word gap labels frame items).bareChars ++ t =
        word ++ (gap ++ (labelsChars labels ++ '{' :: inner)) := by
      simp [Structure.bareChars, inner]
    rw [split, named' _ (ends inner)] at first
    obtain ⟨-, rest⟩ := Prod.mk.inj (Option.some.inj first)
    -- Behind the word stand blank space and then the sign of equality, which no label begins with.
    obtain ⟨c, u, begins, hard, other⟩ := behind inner
    rw [begins] at rest
    have space : Blank.Fills false [' '] := Blank.fills_of_spaces (by simp [Blank.isSpace])
    have here : Blank.gap false (gap ++ c :: u) = some (gap, c :: u) :=
      filled _ (by rintro _ ⟨⟩; exact hard)
    have there : Blank.gap false (' ' :: '=' :: r) = some ([' '], '=' :: r) :=
      space ('=' :: r) (by rintro _ ⟨⟩; decide)
    rw [rest, there] at here
    exact other (List.cons.inj (Prod.mk.inj (Option.some.inj here)).2).1.symm

section Added

variable {key indent closing : Chars} {back : List Structure} (named : Named key)
  (indented : Blank.Fills true indent) (closed : Blank.Fills true closing)
  (placed : ∀ s ∈ back, Blank.Fills true (s.layout.before.getD [])) (parsed : ∀ s ∈ back, s.Parsed)
  (missing : valueAmong? key back = none)
include named indented closed placed parsed missing

/-- Where an attribute was missing, the next structure or the end of the block begins otherwise. -/
theorem clash_attribute (x y : Chars) :
    Clash (indent ++ (key ++ ' ' :: '=' :: x)) (linesChars true back ++ (closing ++ '}' :: y)) := by
  obtain ⟨c, w, rfl, start⟩ := named.head
  have hard := soft_of_wordStart start
  have other : c ≠ '}' := by
    rintro rfl
    exact absurd start (by decide)
  cases back with
  | nil => exact .of_fills indented closed hard (by decide) (.of_head other)
  | cons s rest =>
    -- Behind the blank space both texts begin with words, and only one of them gives the key a
    -- value.
    obtain ⟨d, u, begins, start'⟩ := (parsed s List.mem_cons_self).head
    have absent : s.valueOf? (c :: w) = none := by
      rw [valueAmong?_cons, Option.or_eq_none_iff] at missing
      exact missing.1
    have split : linesChars true (s :: rest) ++ (closing ++ '}' :: y) = s.layout.before.getD [] ++
        (d :: (u ++ (s.layout.after.getD [] ++ '\n' ::
          (linesChars true rest ++ (closing ++ '}' :: y))))) := by
      simp [linesChars, Structure.chars_eq, Layout.around, begins]
    rw [split]
    refine .of_fills indented (placed s List.mem_cons_self) hard (soft_of_wordStart start') ?_
    intro t t' same
    exact not_begins_of_parsed (parsed s List.mem_cons_self) named absent
      (s.layout.after.getD [] ++ '\n' :: (linesChars true rest ++ (closing ++ '}' :: y)) ++ t')
      (x ++ t)
      (by simpa [begins] using same.symm)

end Added

theorem linesChars_append (front back : List Structure) :
    linesChars true (front ++ back) = linesChars true front ++ linesChars true back := by
  induction front with
  | nil => rfl
  | cons s front ih => simp [linesChars, ih]

/-- A block to which an attribute is added. -/
theorem clash_addAttribute {layout : Layout} {word gap key : Chars} {labels : List Label}
    {frame : Frame} {items front' back' : List Structure}
    (h : (Structure.block layout word gap labels frame items).Parsed) (named : Named key)
    (missing : valueAmong? key items = none) (value : Chars)
    (front : frame.oneLine = false →
      Shows (linesChars true) front' (splitBehind Structure.isSource items).1) :
    Clash (Body.innerChars ⟨(Body.spread ⟨frame, items⟩).frame,
        front' ++ Body.added ⟨frame, items⟩ key value :: back'⟩ ++ ['}'])
      (Body.innerChars ⟨frame, items⟩ ++ ['}']) := by
  cases h with
  | @row _ _ _ closing _ _ headed onLine parsed =>
    -- The block is spread over lines, and what was on its line began on this line.
    intro t t' same
    have begins : (rowChars items ++ (closing ++ '}' :: t')).head? = some '\n' := by
      simpa [Body.innerChars, Body.spread] using (congrArg List.head? same).symm
    exact onLine t' begins
  | @lines _ _ _ opening closing _ _ headed closed placed parsed =>
    let before := (splitBehind Structure.isSource items).1
    let back := (splitBehind Structure.isSource items).2
    have split : before ++ back = items := splitBehind_append Structure.isSource items
    have lines : linesChars true items = linesChars true before ++ linesChars true back := by
      rw [← linesChars_append, split]
    have inside : ∀ s ∈ back, s ∈ items := fun s member => split ▸ List.mem_append_right _ member
    have absent : valueAmong? key back = none := by
      rw [← split, valueAmong?_append, Option.or_eq_none_iff] at missing
      exact missing.2
    have added := clash_attribute named (fills_added placed) closed
      (fun s member => placed s (inside s member))
      (fun s member => parsed s (inside s member)) absent
      (' ' :: (Node.text value).chars ++ '\n' :: (linesChars true back' ++ (closing ++ ['}']))) []
    have whole : Clash (linesChars true front' ++ (linesChars true
          (Body.added ⟨⟨opening, closing, false, true⟩, items⟩ key value :: back') ++
            (closing ++ ['}'])))
        (linesChars true before ++ (linesChars true back ++ (closing ++ ['}']))) := by
      -- If the structures in front show something, the added attribute need not be looked at.
      rcases front rfl with same | clash
      · rw [same]
        refine Clash.prepend ?_ _
        simpa [linesChars, Body.added, Body.spread, Structure.chars, Expr.chars,
          Layout.around] using added
      · exact clash.append _ _
    have framed := whole.prepend (opening ++ ['\n'])
    simpa [Body.innerChars, Body.spread, linesChars_append, lines] using framed

end Hcl

end TerraformPins
