import TerraformPins.Proofs.Hcl.Readable

/-!
# The indentation of what is added

What is added to a document is indented as the things around it: it takes over the blank space
behind the last line end in front of one of them. This is only done if the line holds nothing else.
It cannot hold the end of a comment then, so it is spaces and tabs.

## Main results

* `fills_indentation` — an indentation is read as blank space wherever it stands
-/

namespace TerraformPins.Hcl

open Scan

/-- What stands behind the last line end. -/
def lastLine (cs : Chars) : Chars :=
  (splitAll (· == '\n') cs).getLastD []

theorem lastLine_of_not_mem {cs : Chars} (h : '\n' ∉ cs) : lastLine cs = cs := by
  rw [lastLine, splitAll_of_not_mem h]
  rfl

theorem lastLine_cons (c : Char) {cs : Chars} (h : c = '\n' ∨ '\n' ∈ cs) :
    lastLine (c :: cs) = lastLine cs := by
  rw [lastLine, lastLine, splitAll]
  split
  case h_1 empty => exact absurd empty (splitAll_ne_nil _ _)
  case h_2 piece pieces' split =>
    rw [split]
    split
    case isTrue => simp
    case isFalse other =>
      rcases h with rfl | inside
      · exact absurd rfl other
      · obtain ⟨x, y, zs, same⟩ :=
          exists_splitAll_of_mem (p := (· == '\n')) inside (beq_self_eq_true _)
        obtain ⟨rfl, rfl⟩ := List.cons.inj (split.symm.trans same)
        simp

theorem lastLine_append (xs ys : Chars) :
    lastLine (xs ++ ys) = if '\n' ∈ ys then lastLine ys else lastLine xs ++ ys := by
  induction xs with
  | nil =>
    split
    case isTrue => rfl
    case isFalse other => exact lastLine_of_not_mem other
  | cons c xs ih =>
    rw [List.cons_append]
    by_cases ends : c = '\n' ∨ '\n' ∈ xs ++ ys
    · rw [lastLine_cons c ends, ih]
      split
      case isTrue => rfl
      case isFalse other =>
        rw [lastLine_cons c (by simpa [other] using ends)]
    · rw [not_or, List.mem_append, not_or] at ends
      obtain ⟨here, there, behind⟩ := ends
      rw [if_neg behind, lastLine_of_not_mem, lastLine_of_not_mem]
      · rfl
      · simp [there, Ne.symm here]
      · simp [there, behind, Ne.symm here]

theorem isBlank_of_mem_lastLine {xs ys : Chars}
    (blank : ∀ c ∈ lastLine (xs ++ ys), isBlank c = true) :
    ∀ c ∈ lastLine ys, isBlank c = true := by
  rw [lastLine_append] at blank
  split at blank
  case isTrue => exact blank
  case isFalse other =>
    rw [lastLine_of_not_mem other]
    exact fun c member => blank c (List.mem_append_right _ member)

/-- A comment ends with a slash. -/
theorem slash_of_commentTail {cs b r : Chars} (run : Blank.commentTail cs = some (b, r)) :
    ∃ init, b = init ++ ['/'] := by
  induction cs using Blank.commentTail.induct generalizing b with
  | case1 t =>
    rw [Blank.commentTail] at run
    cases run
    exact ⟨['*'], rfl⟩
  | case2 c t other ih =>
    rw [Blank.commentTail] at run
    · obtain ⟨⟨b', t'⟩, inner, same⟩ := Option.map_eq_some_iff.mp run
      cases same
      obtain ⟨init, rfl⟩ := ih inner
      exact ⟨c :: init, rfl⟩
    · exact other
  | case3 => cases run

/-- A piece of blank space with a blank last line is made of spaces and tabs, or of one line end. -/
theorem isSpace_of_token {cs a r : Chars} (run : Blank.token true cs = some (a, r))
    (blank : ∀ c ∈ lastLine a, isBlank c = true) : ∀ c ∈ lastLine a, Blank.isSpace c = true := by
  rw [Blank.token, if_pos rfl] at run
  rcases orElse_eq_some_iff.mp run with spaces | ⟨-, later⟩
  · obtain ⟨-, -, all, -⟩ := run1_eq_some_iff.mp spaces
    have noEnd : '\n' ∉ a := fun member => absurd (all _ member) (by decide)
    rwa [lastLine_of_not_mem noEnd]
  rcases orElse_eq_some_iff.mp later with ended | ⟨-, later⟩
  · obtain ⟨rfl | rfl, -⟩ := Blank.lineEnd_eq_some_iff.mp ended <;>
      exact fun c member => absurd member List.not_mem_nil
  rcases orElse_eq_some_iff.mp later with commented | ⟨-, commented⟩
  · -- A comment ends with a slash, which is on its last line.
    obtain ⟨b, rfl, t, rfl, tail⟩ := Blank.comment_eq_some_iff.mp commented
    obtain ⟨init, rfl⟩ := slash_of_commentTail tail
    have slash : '/' ∈ lastLine (('/' :: '*' :: init) ++ ['/']) := by
      rw [lastLine_append, if_neg (by decide)]
      simp
    exact absurd (blank _ slash) (by decide)
  · obtain ⟨lead, b, rfl, -, mark, inside, -⟩ := Blank.lineComment_eq_some_iff.mp commented
    have noEnd : '\n' ∉ lead ++ b := by
      intro member
      rcases List.mem_append.mp member with front | back
      · rcases mark with rfl | rfl <;> exact absurd front (by decide)
      · exact absurd (inside _ back) (by decide)
    rw [lastLine_of_not_mem noEnd] at blank
    rcases mark with rfl | rfl
    · exact absurd (blank '#' (by simp)) (by decide)
    · exact absurd (blank '/' (by simp)) (by decide)

/-- If nothing but blanks stands on the last line of blank space, it is spaces and tabs. -/
theorem isSpace_of_lastLine {cs b t : Chars} (run : Blank.gap true cs = some (b, t))
    (blank : ∀ c ∈ lastLine b, isBlank c = true) : ∀ c ∈ lastLine b, Blank.isSpace c = true := by
  obtain ⟨pieces, chain, rfl⟩ := Blank.gap_eq_some_iff.mp run
  clear run
  induction chain with
  | nil => exact fun c member => absurd member List.not_mem_nil
  | @cons cs r t a more taken _ _ ih =>
    have behind := ih (isBlank_of_mem_lastLine blank)
    rw [List.flatten_cons, lastLine_append] at blank ⊢
    split
    case isTrue => exact behind
    case isFalse other =>
      rw [if_neg other] at blank
      rw [lastLine_of_not_mem other] at behind
      intro c member
      rcases List.mem_append.mp member with front | back
      · exact isSpace_of_token taken
          (fun d inside => blank d (List.mem_append_left _ inside)) c front
      · exact behind c back

theorem indentation?_eq_some_iff {layout : Layout} {line : Chars} :
    layout.indentation? = some line ↔
      ∃ before, layout.before = some before ∧ line = lastLine before ∧
        ∀ c ∈ line, isBlank c = true := by
  cases same : layout.before with
  | none => simp [Layout.indentation?, same]
  | some before =>
    simp only [Layout.indentation?, same, Option.bind_some, Option.some.injEq, exists_eq_left']
    show (if (lastLine before).all isBlank then some (lastLine before) else none) = some line ↔ _
    split
    case isTrue all =>
      rw [Option.some.injEq]
      constructor
      · rintro rfl
        exact ⟨rfl, List.all_eq_true.mp all⟩
      · exact fun both => both.1.symm
    case isFalse other =>
      refine ⟨nofun, ?_⟩
      rintro ⟨rfl, all⟩
      exact absurd (List.all_eq_true.mpr all) other

/-- The indentation of something is spaces and tabs. -/
theorem isSpace_of_indentation {layout : Layout} {line : Chars}
    (fills : Blank.Fills true (layout.before.getD [])) (found : layout.indentation? = some line) :
    ∀ c ∈ line, Blank.isSpace c = true := by
  obtain ⟨before, same, rfl, blank⟩ := indentation?_eq_some_iff.mp found
  rw [same] at fills
  exact isSpace_of_lastLine (fills [] nofun) blank

/-- An indentation is read as blank space wherever it stands. -/
theorem fills_indentation {layout : Layout} (fills : Blank.Fills true (layout.before.getD [])) :
    Blank.Fills true (layout.indentation?.getD []) := by
  cases found : layout.indentation? with
  | none => exact Blank.fills_nil true
  | some line => exact Blank.fills_of_spaces (isSpace_of_indentation fills found)

end TerraformPins.Hcl
