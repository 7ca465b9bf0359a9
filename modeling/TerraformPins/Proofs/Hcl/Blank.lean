import TerraformPins.Hcl.Blank
import TerraformPins.Proofs.Scan.Replay

/-!
# Replaying blank space

Blank space ends in front of a character that cannot begin any. Whether a slash does depends on the
character behind it.

## Main definitions

* `Blank.soft`, `Blank.Hard` — what can begin blank space, and what cannot
* `Blank.skip` — what is left behind blank space
* `Near` — two rests behind blank space

## Main results

* `Blank.replays_gap` — blank space is replayed
* `Blank.skip_skip` — the space across lines begins with the space inside the line
-/

namespace TerraformPins.Hcl

open Scan

namespace Blank

/-- One piece of blank space. -/
def token (newlines : Bool) : Scan (List Char) :=
  if newlines then run1 isSpace <|> lineEnd <|> comment <|> lineComment
  else run1 isSpace <|> comment

theorem gap_eq (newlines : Bool) : gap newlines = runs (token newlines) := by
  cases newlines <;> rfl

/-- The characters that can begin blank space. -/
def soft (newlines : Bool) (c : Char) : Bool :=
  isSpace c || c == '/' || (newlines && (c == '\n' || c == '\r' || c == '#'))

/-- The rest of a comment ends with its mark, whatever is behind it. -/
theorem commentTail_spec {cs a rest : List Char} (h : commentTail cs = some (a, rest)) :
    cs = a ++ rest ∧ ∀ rest', commentTail (a ++ rest') = some (a, rest') := by
  induction cs using commentTail.induct generalizing a with
  | case1 t =>
    rw [commentTail] at h
    cases h
    exact ⟨rfl, fun _ => rfl⟩
  | case2 c t other ih =>
    rw [commentTail] at h
    · obtain ⟨⟨b, t'⟩, inner, same⟩ := Option.map_eq_some_iff.mp h
      cases same
      obtain ⟨rfl, again⟩ := ih inner
      refine ⟨rfl, fun rest' => ?_⟩
      rw [List.cons_append, commentTail, again]
      · rfl
      · -- the mark is not at the front, whatever comes behind what was taken
        intro t' star slash
        cases b with
        | nil =>
          have none := again []
          simp [commentTail] at none
        | cons d b =>
          obtain ⟨rfl, -⟩ := List.cons.inj slash
          exact other _ star rfl
    · exact other
  | case3 => cases h

theorem comment_eq_some_iff {cs a rest : List Char} :
    comment cs = some (a, rest) ↔
      ∃ b, a = '/' :: '*' :: b ∧ ∃ t, cs = '/' :: '*' :: t ∧ commentTail t = some (b, rest) := by
  rw [comment, bind_eq_some_iff]
  constructor
  · rintro ⟨lead, t, first, second⟩
    obtain ⟨rfl, rfl⟩ := exactly_eq_some_iff.mp first
    obtain ⟨b, t', tail, last⟩ := bind_eq_some_iff.mp second
    cases last
    exact ⟨b, rfl, t, rfl, tail⟩
  · rintro ⟨b, rfl, t, rfl, tail⟩
    exact ⟨_, t, exactly_append ['/', '*'] t, by rw [bind_of_eq_some tail]; rfl⟩

/-- The end of the text, the end of a line or a lone carriage return stops a line comment. -/
theorem lineComment_eq_some_iff {cs a rest : List Char} :
    lineComment cs = some (a, rest) ↔
      ∃ lead b, a = lead ++ b ∧ cs = lead ++ b ++ rest ∧ (lead = ['#'] ∨ lead = ['/', '/']) ∧
        (∀ c ∈ b, (c != '\n' && c != '\r') = true) ∧
        ∀ c, rest.head? = some c → (c != '\n' && c != '\r') = false := by
  rw [lineComment, bind_eq_some_iff]
  constructor
  · rintro ⟨lead, t, first, second⟩
    obtain ⟨b, t', taken, last⟩ := bind_eq_some_iff.mp second
    cases last
    obtain ⟨rfl, all, ends⟩ := run_eq_some_iff.mp taken
    -- There are two marks for such a comment, which are told apart by their first characters.
    rcases orElse_eq_some_iff.mp first with one | ⟨-, two⟩
    · obtain ⟨rfl, rfl⟩ := exactly_eq_some_iff.mp one
      exact ⟨_, b, rfl, by simp, .inl rfl, all, ends⟩
    · obtain ⟨rfl, rfl⟩ := exactly_eq_some_iff.mp two
      exact ⟨_, b, rfl, by simp, .inr rfl, all, ends⟩
  · rintro ⟨lead, b, rfl, rfl, which, all, ends⟩
    have tail := run_append all ends
    have first : (exactly ['#'] <|> exactly ['/', '/']) (lead ++ (b ++ rest)) =
        some (lead, b ++ rest) := by
      rcases which with rfl | rfl
      · exact orElse_of_eq_some (exactly_append ['#'] _)
      · have failed : exactly ['#'] (['/', '/'] ++ (b ++ rest)) = none :=
          exactly_cons_eq_none (by decide)
        rw [orElse_of_eq_none failed]
        exact exactly_append ['/', '/'] _
    refine ⟨lead, b ++ rest, by rw [List.append_assoc, first], ?_⟩
    rw [bind_of_eq_some tail]
    rfl

/-- A line end is a line feed, with or without a carriage return in front of it. -/
theorem lineEnd_eq_some_iff {cs a rest : List Char} :
    lineEnd cs = some (a, rest) ↔ (a = ['\n'] ∨ a = ['\r', '\n']) ∧ cs = a ++ rest := by
  rw [lineEnd, orElse_eq_some_iff, exactly_eq_some_iff, exactly_eq_some_iff]
  constructor
  · rintro (⟨rfl, rfl⟩ | ⟨-, rfl, rfl⟩)
    · exact ⟨.inl rfl, rfl⟩
    · exact ⟨.inr rfl, rfl⟩
  · rintro ⟨rfl | rfl, rfl⟩
    · exact .inl ⟨rfl, rfl⟩
    · exact .inr ⟨exactly_cons_eq_none (by decide), rfl, rfl⟩

/-- A line end that weighs no more than a line feed is one. -/
theorem eq_newline_of_weight {le : List Char} (kind : le = ['\n'] ∨ le = ['\r', '\n'])
    (light : weight le ≤ weight ['\n']) : le = ['\n'] := by
  rcases kind with rfl | rfl
  · rfl
  · exact absurd light (by decide)

theorem comment_eq_none_of_head {c : Char} {t : List Char} (ne : c ≠ '/') :
    comment (c :: t) = none :=
  bind_of_eq_none (exactly_cons_eq_none ne.symm)

theorem comment_eq_none_of_next {c : Char} {t : List Char} (ne : c ≠ '*') :
    comment ('/' :: c :: t) = none := by
  have failed : exactly ['/', '*'] ('/' :: c :: t) = none := by
    simp [exactly, stripFront?, ne.symm]
  exact bind_of_eq_none failed

theorem lineComment_eq_none {c : Char} {t : List Char} (hash : c ≠ '#') (slash : c ≠ '/') :
    lineComment (c :: t) = none := by
  have failed : (exactly ['#'] <|> exactly ['/', '/']) (c :: t) = none := by
    rw [orElse_of_eq_none (exactly_cons_eq_none hash.symm), exactly_cons_eq_none slash.symm]
  exact bind_of_eq_none failed

theorem lineComment_eq_none_of_next {c : Char} {t : List Char} (ne : c ≠ '/') :
    lineComment ('/' :: c :: t) = none := by
  have failed : (exactly ['#'] <|> exactly ['/', '/']) ('/' :: c :: t) = none := by
    rw [orElse_of_eq_none (exactly_cons_eq_none (by decide))]
    simp [exactly, stripFront?, ne.symm]
  exact bind_of_eq_none failed

theorem lineEnd_eq_none {c : Char} {t : List Char} (lf : c ≠ '\n') (cr : c ≠ '\r') :
    lineEnd (c :: t) = none := by
  rw [lineEnd, orElse_of_eq_none (exactly_cons_eq_none lf.symm), exactly_cons_eq_none cr.symm]

theorem lineEnd_eq_none_of_next {c : Char} {t : List Char} (ne : c ≠ '\n') :
    lineEnd ('\r' :: c :: t) = none := by
  rw [lineEnd, orElse_of_eq_none (exactly_cons_eq_none (by decide))]
  simp [exactly, stripFront?, ne.symm]

variable {newlines : Bool} {c : Char} {cs a rest : List Char}

/-- A text that does not begin with a character that can begin blank space. -/
def Hard (newlines : Bool) (cs : List Char) : Prop :=
  ∀ c, cs.head? = some c → soft newlines c = false

/-- Two texts that end blank space. A line comment at the end of the text would go on with whatever
is put there. -/
def BothHard (newlines : Bool) (rest rest' : List Char) : Prop :=
  Hard newlines rest ∧ (newlines = true → rest ≠ []) ∧ Hard newlines rest'

/-- The rests behind a piece of blank space begin with the same character, or with two that cannot
begin blank space. -/
def MeetsHead (newlines : Bool) (rest rest' : List Char) : Prop :=
  rest.head? = rest'.head? ∨ BothHard newlines rest rest'

/-- A character that cannot begin blank space is no space. -/
theorem isSpace_eq_false_of_soft (h : soft newlines c = false) : isSpace c = false := by
  simp only [soft, Bool.or_eq_false_iff] at h
  exact h.1.1

theorem MeetsHead.isSpace {rest' : List Char} (h : MeetsHead newlines rest rest')
    (ends : ∀ c, rest.head? = some c → isSpace c = false) :
    ∀ c, rest'.head? = some c → Blank.isSpace c = false := by
  intro d first
  rcases h with same | ⟨-, -, hard⟩
  · exact ends d (same.trans first)
  · exact isSpace_eq_false_of_soft (hard d first)

/-- A line comment stops in front of a character that can begin blank space. -/
theorem MeetsHead.lineComment {rest' : List Char} (h : MeetsHead true rest rest')
    (ends : ∀ c, rest.head? = some c → (c != '\n' && c != '\r') = false) :
    ∀ c, rest'.head? = some c → (c != '\n' && c != '\r') = false := by
  intro d first
  rcases h with same | ⟨hard, nonempty, -⟩
  · exact ends d (same.trans first)
  · obtain ⟨c, t, rfl⟩ := List.exists_cons_of_ne_nil (nonempty rfl)
    have stop := ends c rfl
    have firm := hard c rfl
    simp only [soft, Bool.or_eq_false_iff, Bool.true_and] at firm
    simp_all

/-- Spaces, the first kind of piece. -/
theorem run1_isSpace_spec (h : run1 isSpace cs = some (a, rest)) :
    a ≠ [] ∧ cs = a ++ rest ∧ ∀ rest', MeetsHead newlines rest rest' →
      run1 isSpace (a ++ rest') = some (a, rest') := by
  obtain ⟨nonempty, split, all, ends⟩ := run1_eq_some_iff.mp h
  exact ⟨nonempty, split, fun rest' meets =>
    run1_eq_some_iff.mpr ⟨nonempty, rfl, all, meets.isSpace ends⟩⟩

/-- A comment ends with its mark, so it is read again in front of everything. -/
theorem comment_spec (h : comment cs = some (a, rest)) :
    a ≠ [] ∧ cs = a ++ rest ∧ (∃ t, a = '/' :: t) ∧
      ∀ rest', comment (a ++ rest') = some (a, rest') := by
  obtain ⟨b, rfl, t, rfl, tail⟩ := comment_eq_some_iff.mp h
  obtain ⟨rfl, again⟩ := commentTail_spec tail
  refine ⟨by simp, rfl, ⟨_, rfl⟩, fun rest' => ?_⟩
  exact comment_eq_some_iff.mpr ⟨b, rfl, b ++ rest', rfl, again rest'⟩

theorem run1_isSpace_eq_none (h : isSpace c = false) (t : List Char) :
    run1 isSpace (c :: t) = none := by
  rw [run1_eq_none_iff]
  intro d first
  obtain rfl := Option.some.inj first
  exact h

/-- The end of a line is a piece of blank space across lines. -/
theorem token_of_lineEnd (h : lineEnd cs = some (a, rest)) : token true cs = some (a, rest) := by
  obtain ⟨which, rfl⟩ := lineEnd_eq_some_iff.mp h
  have failed : run1 isSpace (a ++ rest) = none := by
    rcases which with rfl | rfl <;> exact run1_isSpace_eq_none (by decide) _
  simp only [token, if_true]
  rw [orElse_of_eq_none failed]
  exact orElse_of_eq_some h

/-- A line comment is a piece of blank space across lines. -/
theorem token_of_lineComment (h : lineComment cs = some (a, rest)) :
    token true cs = some (a, rest) := by
  obtain ⟨lead, b, rfl, rfl, which, -⟩ := lineComment_eq_some_iff.mp h
  have failed : run1 isSpace (lead ++ b ++ rest) = none := by
    rcases which with rfl | rfl <;> exact run1_isSpace_eq_none (by decide) _
  have failedToo : lineEnd (lead ++ b ++ rest) = none := by
    rcases which with rfl | rfl <;> exact lineEnd_eq_none (by decide) (by decide)
  have failedThen : comment (lead ++ b ++ rest) = none := by
    rcases which with rfl | rfl
    · exact comment_eq_none_of_head (by decide)
    · exact comment_eq_none_of_next (by decide)
  simp only [token, if_true]
  rw [orElse_of_eq_none failed, orElse_of_eq_none failedToo, orElse_of_eq_none failedThen, h]

/-- A piece of blank space that is none inside a line is a line end or a line comment. -/
theorem lineEnd_or_lineComment (inline : token false cs = none)
    (across : token true cs = some (a, rest)) :
    lineEnd cs = some (a, rest) ∨ lineComment cs = some (a, rest) := by
  simp only [token, Bool.false_eq_true, if_false, if_true, orElse_apply,
    Option.or_eq_none_iff] at inline across
  rw [inline.1, inline.2, Option.none_or, Option.none_or] at across
  exact (Option.or_eq_some_iff.mp across).imp id And.right

/-- A piece of blank space is taken again in front of a rest that meets the old one. -/
theorem token_spec (h : token newlines cs = some (a, rest)) :
    a ≠ [] ∧ cs = a ++ rest ∧ ∀ rest', MeetsHead newlines rest rest' →
      token newlines (a ++ rest') = some (a, rest') := by
  -- The alternatives of a piece in their order; in front of the other rest the earlier ones fail
  -- again.
  cases newlines with
  | false =>
    simp only [token, Bool.false_eq_true, if_false] at h ⊢
    rcases orElse_eq_some_iff.mp h with spaces | ⟨-, commented⟩
    · obtain ⟨nonempty, split, again⟩ := @run1_isSpace_spec false _ _ _ spaces
      exact ⟨nonempty, split, fun rest' meets => orElse_of_eq_some (again rest' meets)⟩
    · obtain ⟨nonempty, split, ⟨t, rfl⟩, again⟩ := comment_spec commented
      refine ⟨nonempty, split, fun rest' _ => ?_⟩
      have failed : run1 isSpace ('/' :: t ++ rest') = none := run1_isSpace_eq_none (by decide) _
      rw [orElse_of_eq_none failed, again]
  | true =>
    rw [token, if_pos rfl] at h
    rcases orElse_eq_some_iff.mp h with spaces | ⟨-, later⟩
    · obtain ⟨nonempty, split, again⟩ := @run1_isSpace_spec true _ _ _ spaces
      exact ⟨nonempty, split, fun rest' meets => orElse_of_eq_some (again rest' meets)⟩
    rcases orElse_eq_some_iff.mp later with ended | ⟨-, later⟩
    · obtain ⟨which, split⟩ := lineEnd_eq_some_iff.mp ended
      refine ⟨by rcases which with rfl | rfl <;> simp, split, fun rest' _ => ?_⟩
      exact token_of_lineEnd (lineEnd_eq_some_iff.mpr ⟨which, rfl⟩)
    rcases orElse_eq_some_iff.mp later with commented | ⟨noComment, commented⟩
    · obtain ⟨nonempty, split, ⟨t, rfl⟩, again⟩ := comment_spec commented
      refine ⟨nonempty, split, fun rest' _ => ?_⟩
      have failed : run1 isSpace ('/' :: t ++ rest') = none := run1_isSpace_eq_none (by decide) _
      have failedToo : lineEnd ('/' :: t ++ rest') = none := lineEnd_eq_none (by decide) (by decide)
      rw [token, if_pos rfl, orElse_of_eq_none failed, orElse_of_eq_none failedToo]
      exact orElse_of_eq_some (again rest')
    · obtain ⟨lead, b, rfl, rfl, which, all, ends⟩ := lineComment_eq_some_iff.mp commented
      refine ⟨by rcases which with rfl | rfl <;> simp, rfl, fun rest' meets => ?_⟩
      exact token_of_lineComment
        (lineComment_eq_some_iff.mpr ⟨lead, b, rfl, rfl, which, all, meets.lineComment ends⟩)

/-- A token of blank space takes at least one character. -/
theorem token_advances : (token newlines).Advances := by
  intro cs a rest h
  obtain ⟨nonempty, rfl, -⟩ := token_spec h
  have := List.length_pos_iff.mpr nonempty
  rw [List.length_append]
  omega

/-- No token begins with a character that cannot begin blank space. -/
theorem token_eq_none (h : soft newlines c = false) (t : List Char) :
    token newlines (c :: t) = none := by
  have space := isSpace_eq_false_of_soft h
  simp only [soft, Bool.or_eq_false_iff] at h
  have slash : c ≠ '/' := by simpa using h.1.2
  cases newlines with
  | false =>
    simp only [token, Bool.false_eq_true, if_false]
    rw [orElse_of_eq_none (run1_isSpace_eq_none space t), comment_eq_none_of_head slash]
  | true =>
    simp only [Bool.true_and, Bool.or_eq_false_iff, beq_eq_false_iff_ne, ne_eq] at h
    simp only [token, if_true]
    rw [orElse_of_eq_none (run1_isSpace_eq_none space t),
      orElse_of_eq_none (lineEnd_eq_none h.2.1.1 h.2.1.2),
      orElse_of_eq_none (comment_eq_none_of_head slash), lineComment_eq_none h.2.2 slash]

/-- Blank space across lines that begins with the mark of a line end begins with the line end. -/
theorem lineEnd_of_token {a rest t : List Char} (mark : c = '\n' ∨ c = '\r')
    (taken : token true (c :: t) = some (a, rest)) : lineEnd (c :: t) = some (a, rest) := by
  have inside : soft false c = false := by rcases mark with rfl | rfl <;> decide
  refine (lineEnd_or_lineComment (token_eq_none inside t) taken).resolve_right fun commented => ?_
  rw [lineComment_eq_none (by rcases mark with rfl | rfl <;> decide)
    (by rcases mark with rfl | rfl <;> decide)] at commented
  cases commented

end Blank

/-- Two rests behind blank space: they begin with the same two characters, which do not begin a
comment, or with two that cannot begin blank space. -/
def Near (newlines : Bool) (rest rest' : List Char) : Prop :=
  (∃ a b t t', rest = a :: b :: t ∧ rest' = a :: b :: t' ∧ ¬ (a = '/' ∧ b = '*')) ∨
    Blank.BothHard newlines rest rest'

/-- Two characters that cannot begin blank space end it. -/
theorem near_of_hard {newlines : Bool} {c c' : Char} {t t' : List Char}
    (h : Blank.soft newlines c = false) (h' : Blank.soft newlines c' = false) :
    Near newlines (c :: t) (c' :: t') := by
  refine .inr ⟨fun d first => ?_, fun _ => List.cons_ne_nil c t, fun d first => ?_⟩
  · obtain rfl := Option.some.inj first
    exact h
  · obtain rfl := Option.some.inj first
    exact h'

namespace Blank

/-- Whether a line end begins depends on the first two characters. -/
theorem lineEnd_eq_none_of_share {a b : Char} {t t' : List Char}
    (h : lineEnd (a :: b :: t) = none) : lineEnd (a :: b :: t') = none := by
  by_cases lf : a = '\n'
  · subst lf
    have taken : lineEnd ('\n' :: b :: t) = some (['\n'], b :: t) :=
      lineEnd_eq_some_iff.mpr ⟨.inl rfl, rfl⟩
    cases h.symm.trans taken
  · by_cases cr : a = '\r'
    · subst cr
      refine lineEnd_eq_none_of_next fun next => ?_
      subst next
      have taken : lineEnd ('\r' :: '\n' :: t) = some (['\r', '\n'], t) :=
        lineEnd_eq_some_iff.mpr ⟨.inr rfl, rfl⟩
      cases h.symm.trans taken
    · exact lineEnd_eq_none lf cr

theorem lineComment_eq_none_of_share {a b : Char} {t t' : List Char}
    (h : lineComment (a :: b :: t) = none) : lineComment (a :: b :: t') = none := by
  -- what follows the mark of a line comment cannot fail
  have marked : ∀ lead u, (exactly ['#'] <|> exactly ['/', '/']) (a :: b :: t) = some (lead, u) →
      lineComment (a :: b :: t) ≠ none := by
    intro lead u taken
    rw [lineComment, bind_of_eq_some taken, bind_of_eq_some (run_apply _ _)]
    simp
  by_cases hash : a = '#'
  · subst hash
    exact absurd h (marked _ _ (orElse_of_eq_some (exactly_append ['#'] _)))
  · by_cases slash : a = '/'
    · subst slash
      refine lineComment_eq_none_of_next fun next => ?_
      subst next
      refine absurd h (marked ['/', '/'] t ?_)
      rw [orElse_of_eq_none (exactly_cons_eq_none (by decide))]
      exact exactly_append ['/', '/'] _
    · exact lineComment_eq_none hash slash

/-- Two characters decide whether blank space goes on, unless they begin a comment. -/
theorem token_eq_none_of_share {newlines : Bool} {a b : Char} {t t' : List Char}
    (other : ¬ (a = '/' ∧ b = '*')) (h : token newlines (a :: b :: t) = none) :
    token newlines (a :: b :: t') = none := by
  have noComment : comment (a :: b :: t') = none := by
    by_cases slash : a = '/'
    · subst slash
      exact comment_eq_none_of_next fun star => other ⟨rfl, star⟩
    · exact comment_eq_none_of_head slash
  have noSpace : run1 isSpace (a :: b :: t) = none → run1 isSpace (a :: b :: t') = none := by
    simp only [run1_eq_none_iff]
    exact fun ends c first => ends c first
  cases newlines with
  | false =>
    simp only [token, Bool.false_eq_true, if_false, orElse_apply, Option.or_eq_none_iff] at h ⊢
    exact ⟨noSpace h.1, noComment⟩
  | true =>
    simp only [token, if_true, orElse_apply, Option.or_eq_none_iff] at h ⊢
    exact ⟨noSpace h.1, lineEnd_eq_none_of_share h.2.1, noComment,
      lineComment_eq_none_of_share h.2.2.2⟩

theorem token_nil : token newlines [] = none := by
  cases newlines <;> rfl

/-- No token stands where no blank space can begin. -/
theorem token_eq_none_of_hard (hard : Hard newlines cs) : token newlines cs = none := by
  cases cs with
  | nil => exact token_nil
  | cons c t => exact token_eq_none (hard c rfl) t

/-- Blank space is read again in front of a rest that is near the one behind it. -/
theorem replays_gap (n : Nat) (newlines : Bool) :
    Replays n 0 True Gauge.text (Near newlines) (gap newlines) := by
  have pieces : Replays n 0 True Gauge.text (MeetsHead newlines) (token newlines) := by
    intro cs a rest taken
    obtain ⟨-, split, again⟩ := token_spec taken
    exact ⟨a, split, fun _ =>
      ⟨by simp [Gauge.text], fun _ _ => ⟨trivial, fun rest' => again rest'⟩⟩⟩
  have repeated := pieces.many (D := Near newlines) token_advances
    (fun a w rest rest' taken _ _ _ _ _ => by
      obtain ⟨nonempty, split, -⟩ := token_spec taken
      obtain rfl := List.append_cancel_right split
      obtain ⟨c, t, rfl⟩ := List.exists_cons_of_ne_nil nonempty
      exact .inl rfl)
    (fun rest rest' near => by
      rcases near with ⟨a, b, t, t', rfl, rfl, other⟩ | hard
      · exact ⟨.inl rfl, fun failed => token_eq_none_of_share other failed⟩
      · exact ⟨.inr hard, fun _ => token_eq_none_of_hard hard.2.2⟩)
  rw [gap_eq, runs]
  refine repeated.map (fun as => ?_) fun as _ _ => ⟨trivial, fun a _ => trivial⟩
  induction as with
  | nil => simp [Gauge.text, Gauge.list]
  | cons a as ih => simpa [Gauge.text, Gauge.list] using ih

/-! ### Behind blank space -/

/-- What is left behind blank space. -/
def skip (newlines : Bool) (cs : List Char) : List Char :=
  ((gap newlines cs).map Prod.snd).getD cs

theorem gap_eq_of_token_eq_none (h : token newlines cs = none) :
    gap newlines cs = some ([], cs) := by
  rw [gap_eq, runs, map_apply, many_eq, h]
  rfl

/-- Blank space is a token and the blank space behind it. -/
theorem gap_eq_of_token {a b r t : List Char} (h : token newlines cs = some (a, r))
    (more : gap newlines r = some (b, t)) : gap newlines cs = some (a ++ b, t) := by
  rw [gap_eq, runs, map_apply, Option.map_eq_some_iff] at more
  obtain ⟨⟨as, t'⟩, chain, same⟩ := more
  cases same
  have shorter := token_advances _ _ _ h
  have whole := many_eq_some_of_chain (.cons h shorter (many_iff_chain.mp chain))
  rw [gap_eq, runs, map_apply, whole]
  rfl

/-- Blank space is nothing, or a piece and more blank space. -/
theorem gap_cases {b t : List Char} (h : gap newlines cs = some (b, t)) :
    (token newlines cs = none ∧ b = [] ∧ cs = t) ∨
      ∃ a r b', token newlines cs = some (a, r) ∧ b = a ++ b' ∧ gap newlines r = some (b', t) := by
  rw [gap_eq, runs, map_apply, Option.map_eq_some_iff] at h
  obtain ⟨⟨as, t'⟩, run, same⟩ := h
  cases same
  cases many_iff_chain.mp run with
  | nil stops =>
    refine .inl ⟨Option.eq_none_iff_forall_ne_some.mpr fun x taken => ?_, rfl, rfl⟩
    exact stops x.1 x.2 taken (token_advances _ _ _ taken)
  | @cons _ r _ a as taken _ more =>
    refine .inr ⟨a, r, as.flatten, taken, rfl, ?_⟩
    rw [gap_eq, runs, map_apply, many_eq_some_of_chain more]
    rfl

/-- There is blank space everywhere, if only an empty one. -/
theorem exists_gap (newlines : Bool) (cs : List Char) :
    ∃ b, gap newlines cs = some (b, skip newlines cs) := by
  obtain ⟨as, rest, chain⟩ := exists_chain (token newlines) cs
  have run : gap newlines cs = some (as.flatten, rest) := by
    rw [gap_eq, runs, map_apply, many_eq_some_of_chain chain]
    rfl
  exact ⟨as.flatten, by rw [skip, run]; rfl⟩

theorem skip_eq_of_gap {b t : List Char} (h : gap newlines cs = some (b, t)) :
    skip newlines cs = t := by
  rw [skip, h]
  rfl

/-- Blank space is made of its tokens. -/
theorem gap_eq_some_iff {b t : List Char} :
    gap newlines cs = some (b, t) ↔ ∃ as, Chain (token newlines) cs as t ∧ as.flatten = b := by
  rw [gap_eq, runs, map_apply, Option.map_eq_some_iff]
  constructor
  · rintro ⟨⟨as, u⟩, run, same⟩
    cases same
    exact ⟨as, many_iff_chain.mp run, rfl⟩
  · rintro ⟨as, chain, rfl⟩
    exact ⟨(as, t), many_iff_chain.mpr chain, rfl⟩

/-- No token is left behind blank space. -/
theorem token_skip (newlines : Bool) (cs : List Char) :
    token newlines (skip newlines cs) = none := by
  obtain ⟨b, run⟩ := exists_gap newlines cs
  obtain ⟨as, chain, -⟩ := gap_eq_some_iff.mp run
  generalize skip newlines cs = last at chain
  clear run
  induction chain with
  | nil stops =>
    rw [Option.eq_none_iff_forall_ne_some]
    exact fun x taken => stops x.1 x.2 taken (token_advances _ _ _ taken)
  | cons _ _ _ ih => exact ih

/-- Blank space is kept as it was written. -/
theorem gap_split {b t : List Char} (h : gap newlines cs = some (b, t)) : cs = b ++ t := by
  obtain ⟨as, chain, rfl⟩ := gap_eq_some_iff.mp h
  clear h
  induction chain with
  | nil => rfl
  | cons taken _ _ ih =>
    obtain ⟨-, rfl, -⟩ := token_spec taken
    rw [List.flatten_cons, List.append_assoc, ← ih]

/-- Blank space is taken again in front of a rest that is near. -/
theorem gap_again {b t t' : List Char} (h : gap newlines cs = some (b, t))
    (near : Near newlines t t') : gap newlines (b ++ t') = some (b, t') := by
  obtain ⟨w, split, replay⟩ := replays_gap cs.length newlines cs b t h
  obtain rfl := gap_split h
  obtain rfl := List.append_cancel_right split
  obtain ⟨-, again⟩ := replay (by simp)
  exact (again (by simp [Gauge.text]) trivial).2 t' near

/-- The pieces of blank space inside a line are pieces of blank space across lines. -/
theorem token_true_of_false {r : List Char} (h : token false cs = some (a, r)) :
    token true cs = some (a, r) := by
  simp only [token, if_true, Bool.false_eq_true, if_false] at h ⊢
  rcases orElse_eq_some_iff.mp h with spaces | ⟨failed, commented⟩
  · exact orElse_of_eq_some spaces
  · obtain ⟨-, rfl, ⟨t, rfl⟩, -⟩ := comment_spec commented
    have noEnd : lineEnd ('/' :: t ++ r) = none := lineEnd_eq_none (by decide) (by decide)
    rw [orElse_of_eq_none failed, orElse_of_eq_none noEnd]
    exact orElse_of_eq_some commented

/-- The space across lines begins with the space inside the line. -/
theorem gap_true_of_false {a b r t : List Char} (h : gap false cs = some (a, r))
    (more : gap true r = some (b, t)) : gap true cs = some (a ++ b, t) := by
  obtain ⟨as, chain, rfl⟩ := gap_eq_some_iff.mp h
  clear h
  induction chain with
  | nil => exact more
  | cons taken _ _ ih =>
    rw [List.flatten_cons, List.append_assoc]
    exact gap_eq_of_token (token_true_of_false taken) (ih more)

/-- Blank space on a line is a part of the blank space that goes on over line ends. -/
theorem skip_skip (cs : List Char) : skip true (skip false cs) = skip true cs := by
  obtain ⟨a, run⟩ := exists_gap false cs
  obtain ⟨b, more⟩ := exists_gap true (skip false cs)
  exact (skip_eq_of_gap (gap_true_of_false run more)).symm

/-- Where no blank space can begin, none is skipped. -/
theorem skip_eq_of_hard (hard : Hard newlines cs) : skip newlines cs = cs :=
  skip_eq_of_gap (gap_eq_of_token_eq_none (token_eq_none_of_hard hard))

theorem gap_of_hard (hard : Hard newlines cs) : gap newlines cs = some ([], cs) :=
  gap_eq_of_token_eq_none (token_eq_none_of_hard hard)

/-- Blank space begins with a character that can begin it. -/
theorem soft_of_gap {b t : List Char} (h : gap newlines cs = some (c :: b, t)) :
    soft newlines c = true := by
  have split := gap_split h
  refine Bool.of_not_eq_false fun hard => ?_
  have stays : gap newlines cs = some ([], cs) := gap_of_hard fun d first => by
    rw [split] at first
    obtain rfl := Option.some.inj first
    exact hard
  rw [h] at stays
  simp at stays

/-! The same for the space inside a line. -/

theorem inline_split {b t : List Char} (h : inline cs = some (b, t)) : cs = b ++ t :=
  @gap_split false cs b t h

theorem inline_again {b t t' : List Char} (h : inline cs = some (b, t)) (near : Near false t t') :
    inline (b ++ t') = some (b, t') :=
  @gap_again false cs b t t' h near

theorem soft_of_inline {b t : List Char} (h : inline cs = some (c :: b, t)) : soft false c = true :=
  soft_of_gap h

/-! The same for the space across lines. -/

theorem across_split {b t : List Char} (h : across cs = some (b, t)) : cs = b ++ t :=
  @gap_split true cs b t h

theorem skip_eq_of_across {b t : List Char} (h : across cs = some (b, t)) : skip true cs = t :=
  skip_eq_of_gap h

theorem across_eq_of_token_eq_none (h : token true cs = none) : across cs = some ([], cs) :=
  gap_eq_of_token_eq_none h

theorem soft_of_across {b t : List Char} (h : across cs = some (c :: b, t)) : soft true c = true :=
  soft_of_gap h

end Blank

end TerraformPins.Hcl
