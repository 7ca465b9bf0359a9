import TerraformPins.Proofs.Hcl.Heredoc
import TerraformPins.Proofs.Hcl.Loop

/-!
# Replaying objects

The entries of an object end with a comma, a line end or the closing brace. Behind a line end the
next key may look like something that the value before it goes on with: arguments of a call behind a
word, an index behind parentheses. Whether it does is left open here as `KeysSettle`.

## Main definitions

* `Grammar.EntryEnd` — two rests behind an entry
* `Grammar.KeysSettle` — a key that does not go on with the value before it never does

## Main results

* `Grammar.replays_entry` — an entry of an object
* `Grammar.replays_object` — objects and the loops in braces
-/

namespace TerraformPins.Hcl.Grammar

open Scan

/-! ### The end of an entry -/

/-- What ends an entry, by its written form. -/
def stopGauge : Gauge (Chars × Stop) := ⟨fun x => weight x.1 + weight x.2.chars, fun _ => True⟩

/-- A line comment is read again in front of the same character, which ends it. -/
theorem replays_lineComment (n : Nat) :
    Replays n 0 True Gauge.text (fun r r' => r.head? = r'.head?) Blank.lineComment := by
  intro cs a rest run
  obtain ⟨lead, b, rfl, rfl, which, all, ends⟩ := Blank.lineComment_eq_some_iff.mp run
  refine ⟨lead ++ b, rfl, fun _ =>
    ⟨by simp [Gauge.text], fun _ _ => ⟨trivial, fun rest' same => ?_⟩⟩⟩
  exact Blank.lineComment_eq_some_iff.mpr ⟨lead, b, rfl, rfl, which, all, same ▸ ends⟩

theorem leads_lineEnd : Leads (fun c => c == '\n' || c == '\r') Blank.lineEnd := by
  intro cs x run
  obtain ⟨which, same⟩ := Blank.lineEnd_eq_some_iff.mp (show _ = some (x.1, x.2) from run)
  rcases which with le | le <;> rw [le] at same
  · exact ⟨'\n', x.2, rfl, same⟩
  · exact ⟨'\r', '\n' :: x.2, rfl, same⟩

theorem leads_lineComment : Leads (fun c => c == '#' || c == '/') Blank.lineComment := by
  intro cs x run
  obtain ⟨lead, b, -, same, which, -⟩ :=
    Blank.lineComment_eq_some_iff.mp (show _ = some (x.1, x.2) from run)
  rcases which with rfl | rfl
  · exact ⟨'#', b ++ x.2, rfl, same⟩
  · exact ⟨'/', '/' :: (b ++ x.2), rfl, same⟩

/-- A comma behind an entry. -/
def stopAtComma : Scan (Chars × Stop) := do
  let _ ← exactly [',']
  pure ([], Stop.comma)

/-- A line end behind an entry. -/
def stopAtLineEnd : Scan (Chars × Stop) := do
  let _ ← Blank.lineEnd
  pure ([], Stop.newline)

/-- A line comment and the line end behind an entry. -/
def stopAtComment : Scan (Chars × Stop) := do
  let comment ← Blank.lineComment
  let _ ← Blank.lineEnd
  pure (comment, Stop.newline)

/-- The brace in front of which the last entry may end. -/
def stopAtBrace : Scan (Chars × Stop) := do
  ahead ['}']
  pure ([], Stop.brace)

/-- An entry stops at a comma, a line end, a comment on its line or the brace of its object. -/
theorem entryStop_eq :
    entryStop = (stopAtComma <|> stopAtLineEnd <|> stopAtComment <|> stopAtBrace) := rfl

/-- An entry stops in front of a brace, which it leaves. -/
theorem stopAtBrace_eq_some_iff {cs r : Chars} {x : Chars × Stop} :
    stopAtBrace cs = some (x, r) ↔ x = ([], .brace) ∧ r = cs ∧ cs.head? = some '}' := by
  have looks : ahead ['}'] cs = if cs.head? = some '}' then some ((), cs) else none := by
    have seen : ['}'].isPrefixOf cs = (cs.head? == some '}') := by
      cases cs with
      | nil => rfl
      | cons c t => simp [List.isPrefixOf, Bool.beq_comm]
    show (guard (['}'].isPrefixOf cs = true) : Scan Unit) cs = _
    rw [guard_apply, seen]
    simp only [beq_iff_eq]
  rw [stopAtBrace, bind_apply, looks]
  split
  case isTrue brace =>
    simp only [Option.bind_some, pure_apply, Option.some.injEq, Prod.mk.injEq, brace, and_true]
    exact ⟨fun ⟨same, rest⟩ => ⟨same.symm, rest.symm⟩, fun ⟨same, rest⟩ => ⟨same.symm, rest.symm⟩⟩
  case isFalse other => simp [other]

theorem leads_stopAtBrace : Leads (· == '}') stopAtBrace := by
  intro cs x run
  obtain ⟨-, -, first⟩ := stopAtBrace_eq_some_iff.mp (show _ = some (x.1, x.2) from run)
  obtain ⟨t, rfl⟩ := List.head?_eq_some_iff.mp first
  exact ⟨'}', t, rfl, rfl⟩

/-- What ends an entry and what is left behind it. -/
theorem entryStop_cases {cs r : Chars} {x : Chars × Stop} (run : entryStop cs = some (x, r)) :
    (x = ([], .comma) ∧ cs = ',' :: r) ∨
      (∃ comment le, x = (comment, .newline) ∧ (le = ['\n'] ∨ le = ['\r', '\n']) ∧
        cs = comment ++ (le ++ r) ∧
        (comment = [] ∨ Blank.lineComment cs = some (comment, le ++ r))) ∨
      (x = ([], .brace) ∧ cs = r ∧ r.head? = some '}') := by
  rw [entryStop_eq] at run
  rcases orElse_eq_some_iff.mp run with comma | ⟨-, run⟩
  · obtain ⟨t, rfl, last⟩ := exactly_bind_eq_some_iff.mp comma
    cases last
    exact .inl ⟨rfl, rfl⟩
  rcases orElse_eq_some_iff.mp run with ends | ⟨-, run⟩
  · obtain ⟨le, t, ended, last⟩ := bind_eq_some_iff.mp ends
    cases last
    obtain ⟨which, same⟩ := Blank.lineEnd_eq_some_iff.mp ended
    exact .inr (.inl ⟨[], le, rfl, which, same, .inl rfl⟩)
  rcases orElse_eq_some_iff.mp run with commented | ⟨-, brace⟩
  · obtain ⟨comment, t, first, more⟩ := bind_eq_some_iff.mp commented
    obtain ⟨le, t, ended, last⟩ := bind_eq_some_iff.mp more
    cases last
    obtain ⟨which, rfl⟩ := Blank.lineEnd_eq_some_iff.mp ended
    obtain ⟨lead, b, rfl, rfl, -⟩ := Blank.lineComment_eq_some_iff.mp first
    exact .inr (.inl ⟨_, le, rfl, which, rfl, .inr first⟩)
  · obtain ⟨rfl, rfl, first⟩ := stopAtBrace_eq_some_iff.mp brace
    exact .inr (.inr ⟨rfl, rfl, first⟩)

/-- The second text begins with the closing brace if the first one does. -/
def BraceAgain (r r' : Chars) : Prop :=
  r.head? = some '}' → r'.head? = some '}'

theorem replays_stopAtComma (n : Nat) : Replays n 0 True stopGauge BraceAgain stopAtComma := by
  refine Replays.lead_bind (Replays.pure ?_ fun _ _ => trivial)
  simp [stopGauge, Stop.chars]

theorem replays_stopAtLineEnd (n : Nat) : Replays n 0 True stopGauge BraceAgain stopAtLineEnd := by
  refine Replays.bind (replays_lineEnd n) (fun _ => Replays.pure ?_ fun _ _ => ⟨trivial, trivial⟩)
    fun _ _ _ _ _ _ _ _ => trivial
  simp [stopGauge, Gauge.fixed, Stop.chars]

theorem replays_stopAtComment (n : Nat) : Replays n 0 True stopGauge BraceAgain stopAtComment := by
  refine Replays.bind (replays_lineComment n) (fun comment => ?_)
    fun comment x w rest rest' run _ _ => ?_
  · refine Replays.bind (replays_lineEnd n) (fun _ => Replays.pure ?_ fun _ _ =>
      ⟨⟨trivial, trivial⟩, trivial⟩) fun _ _ _ _ _ _ _ _ => trivial
    simp [stopGauge, Gauge.fixed, Gauge.text, Stop.chars]
  · -- the line end behind the comment is the same
    obtain ⟨le, t, ended, last⟩ := bind_eq_some_iff.mp run
    cases last
    obtain ⟨which, same⟩ := Blank.lineEnd_eq_some_iff.mp ended
    cases w with
    | nil =>
      have lengths := congrArg List.length same
      rcases which with rfl | rfl <;>
        simp only [List.length_append, List.length_cons, List.length_nil] at lengths <;> omega
    | cons c w => rfl

theorem replays_stopAtBrace (n : Nat) : Replays n 0 True stopGauge BraceAgain stopAtBrace := by
  intro cs x rest run
  obtain ⟨rfl, rfl, first⟩ := stopAtBrace_eq_some_iff.mp run
  refine ⟨[], rfl, fun _ => ⟨by simp [stopGauge, Stop.chars], fun _ _ => ⟨trivial, ?_⟩⟩⟩
  exact fun rest' again => stopAtBrace_eq_some_iff.mpr ⟨rfl, rfl, again first⟩

/-- The end of an entry is read again, if the brace is there again. -/
theorem replays_entryStop (n : Nat) : Replays n 0 True stopGauge BraceAgain entryStop := by
  -- the first character tells the alternatives apart
  have leadsComment : Leads (fun c => c == '#' || c == '/') stopAtComment := leads_lineComment.bind
  have leadsEnd : Leads (fun c => c == '\n' || c == '\r') stopAtLineEnd := leads_lineEnd.bind
  have leadsThird : Leads (fun c => c == '#' || c == '/' || c == '}')
      (stopAtComment <|> stopAtBrace) :=
    (leadsComment.mono fun c ok => by rw [ok]; rfl).orElse
      (leads_stopAtBrace.mono fun c ok => by rw [ok, Bool.or_true])
  have leadsSecond : Leads (fun c => c != ',')
      (stopAtLineEnd <|> stopAtComment <|> stopAtBrace) := by
    refine (leadsEnd.mono fun c ok => ?_).orElse (leadsThird.mono fun c ok => ?_) <;>
      refine bne_iff_ne.mpr ?_ <;> rintro rfl <;> cases ok
  rw [entryStop_eq]
  refine (replays_stopAtComma n).orElse_of_leads ((replays_stopAtLineEnd n).orElse_of_leads
    ((replays_stopAtComment n).orElse_of_leads (replays_stopAtBrace n) leadsComment
      leads_stopAtBrace fun c ok => ?_) leadsEnd leadsThird fun c ok => ?_)
    (leads_exactly ',' []).bind leadsSecond fun c ok => ?_
  · rw [beq_iff_eq.mp ok]
    decide
  · simp only [Bool.or_eq_true, beq_iff_eq] at ok
    rcases ok with (rfl | rfl) | rfl <;> decide
  · simpa using ok

/-! ### Keys and values -/

/-- The sign of an entry is read where it stands. -/
theorem sign_eq_some_iff {cs r : Chars} {s : Sign} : sign cs = some (s, r) ↔ cs = s.chars ++ r := by
  rw [sign, orElse_eq_some_iff, exactly_bind_eq_some_iff, exactly_bind_eq_some_iff]
  constructor
  · rintro (⟨t, rfl, last⟩ | ⟨-, t, rfl, last⟩) <;> cases last <;> rfl
  · rintro rfl
    cases s with
    | equals => exact .inl ⟨r, rfl, rfl⟩
    | colon => exact .inr ⟨exactly_bind_eq_none (by simp [Sign.chars]), r, rfl, rfl⟩

/-- A sign is read again whatever is behind it. -/
theorem replays_sign (n : Nat) :
    Replays n 0 True ⟨fun s => weight s.chars, fun _ => True⟩ (fun _ _ => True) sign := by
  intro cs s rest run
  refine ⟨s.chars, sign_eq_some_iff.mp run, fun _ =>
    ⟨by simp, fun _ _ => ⟨trivial, fun rest' _ => ?_⟩⟩⟩
  exact sign_eq_some_iff.mpr rfl

/-- A sign with no second equals sign behind it ends a key. -/
theorem firm_of_sign (s : Sign) {t : Chars} (single : t.head? ≠ some '=') :
    Firm (s.chars ++ t) := by
  cases s with
  | colon => exact firm_of_mark (by decide) t
  | equals =>
    refine ⟨fun c first => ?_, by simp [Sign.chars], ?_⟩
    · obtain rfl := Option.some.inj first
      decide
    · refine ⟨by simp [Sign.chars], by simp [Sign.chars], by simp [Sign.chars], ?_,
        by simp [Sign.chars]⟩
      cases t with
      | nil => rfl
      | cons c t =>
        show binaryOp ('=' :: c :: t) = none
        unfold binaryOp
        split <;> simp_all

/-- Neither blank space nor a value begins with an equals sign. -/
theorem head_ne_equals {b u : Chars} {c : Char} (start : isStart c = true)
    (gap : Blank.inline (b ++ c :: u) = some (b, c :: u)) : (b ++ c :: u).head? ≠ some '=' := by
  intro first
  cases b with
  | nil =>
    obtain rfl := Option.some.inj first
    exact absurd start (by decide)
  | cons d b =>
    obtain rfl := Option.some.inj first
    exact absurd (Blank.soft_of_inline gap) (by decide)

/-- Two signs in front of values end a key alike. -/
theorem closes_of_sign {s s' : Sign} {t t' : Chars} (h : Firm (s.chars ++ t))
    (h' : Firm (s'.chars ++ t')) : Closes (s.chars ++ t) (s'.chars ++ t') := by
  refine ⟨.inr fun c first => ?_, h, h'⟩
  cases s' <;> obtain rfl := Option.some.inj first <;> decide

/-! ### Entries -/

/-- What is behind the value of an entry. -/
def entryEnd (key : Expr) (sign : Sign) (before : Chars) (value : Node) : Scan Entry := do
  let after ← Blank.inline
  let (comment, stop) ← entryStop
  pure (.mk key sign (.mk (.written before (after ++ comment)) value) stop)

/-- What is behind the key of an entry. -/
def entryTail (key : Expr) : Scan Entry := do
  let sign ← sign
  let before ← Blank.inline
  let value ← nested false
  entryEnd key sign before value

/-- An entry is a key between blank space and what is behind it. -/
theorem entry_eq :
    entry nested = between Blank.across (nested false) Blank.inline >>= entryTail := rfl

/-- The end of an entry is blank space on its line, perhaps a comment, and what stops it. -/
theorem entryEnd_eq_some_iff {key : Expr} {sign : Sign} {before : Chars} {value : Node}
    {cs r : Chars} {e : Entry} : entryEnd key sign before value cs = some (e, r) ↔
      ∃ after t comment stop, Blank.gap false cs = some (after, t) ∧
        entryStop t = some ((comment, stop), r) ∧
        e = .mk key sign (.mk (.written before (after ++ comment)) value) stop := by
  rw [entryEnd, bind_eq_some_iff]
  constructor
  · rintro ⟨after, t, gap, more⟩
    obtain ⟨⟨comment, stop⟩, u, stopped, last⟩ := bind_eq_some_iff.mp more
    cases last
    exact ⟨after, t, comment, stop, gap, stopped, rfl⟩
  · rintro ⟨after, t, comment, stop, gap, stopped, rfl⟩
    exact ⟨after, t, gap, bind_eq_some_iff.mpr ⟨(comment, stop), r, stopped, rfl⟩⟩

/-- A line end behind an entry belongs to the blank space across lines. -/
theorem across_of_newline {cs t after comment r : Chars}
    (gap : Blank.gap false cs = some (after, t))
    (run : entryStop t = some ((comment, .newline), r)) :
    Blank.token true t ≠ none ∧ ∃ b, b ≠ [] ∧ Blank.gap true cs = some (b, Blank.skip true r) := by
  obtain ⟨b, more⟩ := Blank.exists_gap true r
  rcases entryStop_cases run with ⟨same, -⟩ | ⟨comment, le, same, which, rfl, commented⟩ | ⟨same, -⟩
  · cases same
  · cases same
    have ended : Blank.token true (le ++ r) = some (le, r) :=
      Blank.token_of_lineEnd (Blank.lineEnd_eq_some_iff.mpr ⟨which, rfl⟩)
    have behind := Blank.gap_eq_of_token ended more
    have nonempty : le ++ b ≠ [] := by rcases which with rfl | rfl <;> simp
    rcases commented with rfl | commented
    · refine ⟨by simp [ended], after ++ (le ++ b), by simp [nonempty], ?_⟩
      exact Blank.gap_true_of_false gap behind
    · have first := Blank.token_of_lineComment commented
      refine ⟨by simp [first], after ++ (comment ++ (le ++ b)), ?_, ?_⟩
      · simp only [ne_eq, List.append_eq_nil_iff, not_and] at nonempty ⊢
        exact fun _ _ => nonempty
      · exact Blank.gap_true_of_false gap (Blank.gap_eq_of_token first behind)
  · cases same

/-- Two rests behind an entry. -/
structure EntryEnd (r r' : Chars) : Prop where
  brace : BraceAgain r r'
  settled : Settled r r'

/-- What ends an entry ends its value. -/
theorem follow_of_entryEnd {key : Expr} {sign : Sign} {before : Chars} {value : Node} {e : Entry}
    {cs cs' r r' : Chars} (run : entryEnd key sign before value cs = some (e, r))
    (run' : entryEnd key sign before value cs' = some (e, r')) (ends : EntryEnd r r') :
    Follow cs cs' := by
  obtain ⟨after, t, comment, stop, gap, stopped, rfl⟩ := entryEnd_eq_some_iff.mp run
  obtain ⟨after', t', comment', stop', gap', stopped', same⟩ := entryEnd_eq_some_iff.mp run'
  simp only [Entry.mk.injEq, Expr.mk.injEq, Layout.written, Layout.mk.injEq, Option.some.injEq,
    true_and, and_true] at same
  obtain ⟨texts, rfl⟩ := same
  -- a mark ends the value wherever it stands; a line end leaves the question to what is behind it
  have marked : ∀ c u u', isMark c = true → after = after' → t = c :: u → t' = c :: u' →
      Follow cs cs' := by
    rintro c u u' mark rfl rfl rfl
    exact follow_of_gap gap gap' (closes_of_mark mark mark)
  rcases entryStop_cases stopped with ⟨same, split⟩ | ⟨_, le, same, -⟩ | ⟨same, split, first⟩
  · cases same
    rcases entryStop_cases stopped' with ⟨same', split'⟩ | ⟨_, le, same', -⟩ | ⟨same', -⟩
    · cases same'
      exact marked ',' r r' (by decide) (by simpa using texts) split split'
    · cases same'
    · cases same'
  · cases same
    obtain ⟨-, b, -, behind⟩ := across_of_newline gap stopped
    obtain ⟨line, b', nonempty, behind'⟩ := across_of_newline gap' stopped'
    refine ⟨.inr ?_,
      ends.settled.of_line (Blank.skip_eq_of_gap behind) (Blank.skip_eq_of_gap behind') ?_⟩
    · obtain ⟨c, b', rfl⟩ := List.exists_cons_of_ne_nil nonempty
      rw [Blank.gap_split behind']
      intro d first
      obtain rfl := Option.some.inj first
      exact endsWord_of_soft (Blank.soft_of_gap behind')
    · rwa [Blank.skip_eq_of_gap gap']
  · cases same
    rcases entryStop_cases stopped' with ⟨same', -⟩ | ⟨_, le, same', -⟩ | ⟨same', split', first'⟩
    · cases same'
    · cases same'
    · cases same'
      obtain ⟨v, rfl⟩ := List.head?_eq_some_iff.mp first
      obtain ⟨v', rfl⟩ := List.head?_eq_some_iff.mp first'
      exact marked '}' v v' (by decide) (by simpa using texts) split split'

/-- What ends an entry ends the blank space in front of it. -/
theorem near_of_entryStop {w r r' : Chars} {x x' : Chars × Stop}
    (run : entryStop (w ++ r) = some (x, r)) (run' : entryStop (w ++ r') = some (x', r')) :
    Near false (w ++ r) (w ++ r') := by
  rcases entryStop_cases run with ⟨-, split⟩ | ⟨comment, le, -, which, split, commented⟩ |
    ⟨-, split, first⟩
  · obtain rfl : w = [','] := List.append_cancel_right (show w ++ r = [','] ++ r from split)
    exact near_of_hard (by decide) (by decide)
  · rw [← List.append_assoc] at split
    obtain rfl := List.append_cancel_right split
    rcases commented with rfl | commented
    · rcases which with rfl | rfl <;> exact near_of_hard (by decide) (by decide)
    · obtain ⟨lead, b, rfl, -, mark, -⟩ := Blank.lineComment_eq_some_iff.mp commented
      rcases mark with rfl | rfl
      · exact near_of_hard (by decide) (by decide)
      · exact .inl ⟨'/', '/', _, _, rfl, rfl, by decide⟩
  · obtain rfl : w = [] := List.append_cancel_right (show w ++ r = [] ++ r from split)
    -- nothing was taken in front of the other rest, either
    have brace : r'.head? = some '}' := by
      rcases entryStop_cases run' with ⟨-, split'⟩ | ⟨comment, le, -, which, split', -⟩ |
        ⟨-, -, first'⟩
      · have := congrArg List.length split'
        simp only [List.nil_append, List.length_cons] at this
        omega
      · have := congrArg List.length split'
        rcases which with rfl | rfl <;>
          simp only [List.nil_append, List.length_append, List.length_cons,
            List.length_nil] at this <;>
          omega
      · exact first'
    obtain ⟨u, rfl⟩ := List.head?_eq_some_iff.mp first
    obtain ⟨u', rfl⟩ := List.head?_eq_some_iff.mp brace
    exact near_of_hard (by decide) (by decide)

/-- What stands in front of a key or behind it weighs the same if it is not written. -/
theorem weight_entry (key : Expr) (sign : Sign) (value : Expr) (stop : Stop) :
    weight (Entry.mk key sign value stop).chars =
      weight (key.chars []) + weight sign.chars + weight (value.chars []) + weight stop.chars := by
  have blank : ∀ o : Option Chars, weight (o.getD [' ']) = weight (o.getD []) := by
    intro o
    cases o <;> rfl
  obtain ⟨layout, node⟩ := key
  obtain ⟨layout', node'⟩ := value
  simp only [Entry.chars, entryKeyChars, Expr.chars, Layout.around, weight_append, blank]

/-- What is behind a key begins with a sign. -/
theorem firm_of_entryTail {key : Expr} {cs : Chars} {x : Entry × Chars}
    (run : entryTail key cs = some x) : ∃ s t, cs = Sign.chars s ++ t ∧ Firm cs := by
  obtain ⟨s, t, first, more⟩ := bind_eq_some_iff.mp run
  obtain ⟨before, u, gap, more⟩ := bind_eq_some_iff.mp more
  obtain ⟨value, v, read, -⟩ := bind_eq_some_iff.mp more
  obtain rfl := sign_eq_some_iff.mp first
  obtain ⟨c, w, start, rfl⟩ := leads_nested false _ _ read
  obtain rfl := Blank.inline_split gap
  exact ⟨s, _, rfl, firm_of_sign s (head_ne_equals start gap)⟩

/-- Two rests with a sign close the keys in front of them. -/
theorem closes_of_entryTail {key key' : Expr} {cs cs' : Chars} {x x' : Entry × Chars}
    (run : entryTail key cs = some x) (run' : entryTail key' cs' = some x') : Closes cs cs' := by
  obtain ⟨s, t, rfl, firm⟩ := firm_of_entryTail run
  obtain ⟨s', t', rfl, firm'⟩ := firm_of_entryTail run'
  exact closes_of_sign firm firm'

/-- A key in front of the same sign of an entry does not go on with the value before it if it does
not in front of another one. -/
def KeysSettle (n : Nat) : Prop :=
  ∀ u r r' key, between Blank.across (nested false) (Blank.gap false) (u ++ r) = some (key, r) →
    between Blank.across (nested false) (Blank.gap false) (u ++ r') = some (key, r') →
    u.length ≤ n → weight u ≤ weight (key.chars []) → key.Whole → Closes r r' →
    Settled (u ++ r) (u ++ r')

/-! ### One entry for each key -/

/-- An entry is not empty, since it has a sign. -/
theorem weight_entry_pos (entry : Entry) : 0 < weight entry.chars := by
  obtain ⟨key, sign, value, stop⟩ := entry
  have marked : weight sign.chars = 1 := by cases sign <;> rfl
  rw [weight_entry]
  omega

/-- An entry is put behind all others, or something is lost. -/
theorem put_spec (entry : Entry) (kept : List Entry) :
    weight (entriesChars (entry.put kept)) ≤ weight (entriesChars kept) + weight entry.chars ∧
      (weight (entriesChars kept) + weight entry.chars ≤ weight (entriesChars (entry.put kept)) →
        entry.put kept = kept ++ [entry]) := by
  induction kept with
  | nil => simp [Entry.put, entriesChars]
  | cons e rest ih =>
    have positive := weight_entry_pos e
    rw [Entry.put]
    split
    case isTrue =>
      simp only [entriesChars, weight_append]
      omega
    case isFalse =>
      simp only [entriesChars, weight_append, List.cons_append, List.cons.injEq, true_and]
      exact ⟨by omega, fun tight => ih.2 (by omega)⟩

/-- Leaving repeated keys out makes entries lighter, unless there are none to leave out. -/
theorem distinct_spec (entries : List Entry) :
    weight (entriesChars (Entry.distinct entries)) ≤ weight (entriesChars entries) ∧
      (weight (entriesChars entries) ≤ weight (entriesChars (Entry.distinct entries)) →
        Entry.distinct entries = entries) := by
  suffices all : ∀ kept, weight (entriesChars (entries.foldl (fun kept e => e.put kept) kept)) ≤
      weight (entriesChars kept) + weight (entriesChars entries) ∧
      (weight (entriesChars kept) + weight (entriesChars entries) ≤
        weight (entriesChars (entries.foldl (fun kept e => e.put kept) kept)) →
        entries.foldl (fun kept e => e.put kept) kept = kept ++ entries) by
    simpa [Entry.distinct, entriesChars] using all []
  induction entries with
  | nil => simp [entriesChars]
  | cons e rest ih =>
    intro kept
    obtain ⟨light, same⟩ := put_spec e kept
    obtain ⟨light', same'⟩ := ih (e.put kept)
    simp only [List.foldl_cons, entriesChars, weight_append]
    refine ⟨by omega, fun tight => ?_⟩
    rw [same' (by omega), same (by omega), List.append_assoc]
    rfl

/-! ### Productions -/

/-- There is no entry where no expression begins. -/
theorem entry_eq_none {t : Chars}
    (h : ∀ c, (Blank.skip true t).head? = some c → isStart c = false) : entry nested t = none := by
  obtain ⟨b, run⟩ := Blank.exists_gap true t
  have run : Blank.across t = some (b, Blank.skip true t) := run
  rw [entry_eq]
  refine bind_of_eq_none ?_
  rw [between, bind_of_eq_some run]
  exact bind_of_eq_none ((leads_nested false).eq_none_of_head h)

theorem shortens_entry : (entry nested).Shortens :=
  (tracks_entry (n := 0) fun newlines => .refl (shortens_nested newlines)).shortens

theorem shortens_entryTail (key : Expr) : (entryTail key).Shortens :=
  shortens_sign.bind fun _ => shortens_inline.bind fun _ => (shortens_nested false).bind fun _ =>
    shortens_inline.bind fun _ => shortens_entryStop.bind fun _ => shortens_pure _

theorem advances_entry : (entry nested).Advances := by
  have advances : sign.Advances := by
    intro cs s r run
    obtain rfl := sign_eq_some_iff.mp run
    cases s <;> simp [Sign.chars]
  have front : (between Blank.across (nested false) Blank.inline).Shortens :=
    shortens_across.bind fun _ => (shortens_nested false).bind fun _ =>
      shortens_inline.bind fun _ =>
      shortens_pure _
  have back : ∀ key, (entryTail key).Advances := fun key =>
    advances.bind fun _ => shortens_inline.bind fun _ => (shortens_nested false).bind fun _ =>
      shortens_inline.bind fun _ => shortens_entryStop.bind fun _ => shortens_pure _
  exact front.bind_advances back

/-- Two rests behind the entries of an object. -/
def EntriesEnd (r r' : Chars) : Prop :=
  ∃ b t t', Blank.gap true r = some (b, '}' :: t) ∧ Blank.gap true r' = some (b, '}' :: t')

theorem EntriesEnd.entry {r r' : Chars} (h : EntriesEnd r r') :
    EntryEnd r r' ∧ (Grammar.entry nested r = none → Grammar.entry nested r' = none) := by
  obtain ⟨b, t, t', gap, gap'⟩ := h
  have behind := Blank.skip_eq_of_gap gap'
  refine ⟨⟨fun first => ?_, settled_of_calm ?_⟩, fun _ => entry_eq_none fun c first => ?_⟩
  · have split := Blank.gap_split gap
    rw [Blank.gap_split gap']
    cases b with
    | nil => rfl
    | cons c b =>
      rw [split] at first
      obtain rfl := Option.some.inj first
      exact absurd (Blank.soft_of_gap gap) (by decide)
  · rw [behind]
    exact (firm_of_mark (by decide) t').calm
  · rw [behind] at first
    obtain rfl := Option.some.inj first
    decide

/-- The gauge of the entries of an object. -/
def entriesGauge : Gauge (List Entry) := ⟨fun es => weight (entriesChars es), WholeEntries⟩

/-! ### What is in braces -/

/-- An object ends with its brace. -/
theorem ends_objectTail : Ends '}' (objectTail nested) :=
  Ends.bind shortens_entry.many fun _ => ends_closing

/-- What is behind the opening brace of an object begins with an entry or with the closing brace. -/
theorem opens_objectTail : Opens (objectTail nested) := by
  intro cs node rest run
  obtain ⟨entries, t, repeated, more⟩ := bind_eq_some_iff.mp run
  have advances := ends_closing.advances _ _ _ more
  cases many_iff_chain.mp repeated with
  | nil =>
    obtain ⟨b, gap, -⟩ := closing_eq_some_iff.mp more
    exact ⟨'}', rest, Blank.skip_eq_of_across gap, by decide, Nat.le_refl _⟩
  | @cons _ r _ e es taken _ chain =>
    rw [entry_eq] at taken
    obtain ⟨key, v, first, tail⟩ := bind_eq_some_iff.mp taken
    obtain ⟨b, s, gap, inner⟩ := bind_eq_some_iff.mp first
    obtain ⟨node, x, read, behind⟩ := bind_eq_some_iff.mp inner
    refine opens_of_nested gap read ?_
    -- No reader lengthens the text, so what is left in the end is not longer than what is left
    -- behind the first key.
    have shortens : ∀ {α : Type} {p : Scan α} {cs r : Chars} {a : α}, p.Shortens →
        p cs = some (a, r) → r.length ≤ cs.length := by
      intro α p cs r a shortens run
      obtain ⟨w, rfl⟩ := shortens _ _ _ run
      rw [List.length_append]
      omega
    have first := shortens (shortens_inline.bind fun _ => shortens_pure _) behind
    have second := shortens (shortens_entryTail key) tail
    have third := shortens shortens_entry.many (many_eq_some_of_chain chain)
    omega

section Productions

variable {n : Nat}

/-- The end of an entry is read again, if its value is. -/
theorem replays_entryEnd {credit : Nat} {claim : Prop} {key : Expr} {sign : Sign} {before : Chars}
    {value : Node}
    (paid : weight (key.chars []) + weight sign.chars + weight before + weight value.chars ≤ credit)
    (holds : key.Whole → value.Whole → claim) :
    Replays n credit claim Entry.gauge BraceAgain (entryEnd key sign before value) := by
  refine Replays.bind (Blank.replays_gap n false) (fun after => ?_)
    fun after e w rest rest' run run' again => ?_
  · refine (replays_entryStop n).bind_pure (fun ending => ?_)
      fun ending _ whole => ⟨⟨holds whole.1 whole.2, trivial⟩, trivial⟩
    simp only [Entry.gauge, weight_entry, Expr.chars, Layout.around, Layout.written, Gauge.text,
      stopGauge, weight_append, Option.getD_some]
    omega
  · obtain ⟨x, t, stopped, last⟩ := bind_eq_some_iff.mp run
    obtain ⟨x', t', stopped', last'⟩ := bind_eq_some_iff.mp run'
    obtain ⟨-, rfl⟩ := Prod.mk.inj (Option.some.inj last)
    obtain ⟨-, rfl⟩ := Prod.mk.inj (Option.some.inj last')
    exact near_of_entryStop stopped stopped'

theorem replays_entryTail (h : ∀ newlines, Replays n 0 True Node.gauge Follow (nested newlines))
    {credit : Nat} {claim : Prop} {key : Expr} (paid : weight (key.chars []) ≤ credit)
    (holds : key.Whole → claim) : Replays n credit claim Entry.gauge EntryEnd (entryTail key) := by
  refine Replays.bind (replays_sign n) (fun sign => ?_) fun _ _ _ _ _ _ _ _ => trivial
  refine Replays.bind (Blank.replays_gap n false) (fun before => ?_)
    fun before e w rest rest' run run' _ => ?_
  · refine Replays.bind (h false) (fun value => ?_)
      fun value e w rest rest' run run' ends => follow_of_entryEnd run run' ends
    refine (replays_entryEnd ?_ fun whole valued =>
      ⟨⟨⟨holds whole, trivial⟩, trivial⟩, valued⟩).mono (fun _ _ ends => ends.brace) (Nat.le_refl n)
    simp only [Gauge.text, Node.gauge]
    omega
  · obtain ⟨value, t, first, -⟩ := bind_eq_some_iff.mp run
    obtain ⟨value', t', first', -⟩ := bind_eq_some_iff.mp run'
    exact near_of_nested first first'

/-- An entry is read again, if what can follow it is the same. -/
theorem replays_entry (h : ∀ newlines, Replays n 0 True Node.gauge Follow (nested newlines)) :
    Replays n 0 True Entry.gauge EntryEnd (entry nested) := by
  rw [entry_eq]
  refine Replays.bind (replays_between h true false false) (fun key => ?_)
    fun key e w rest rest' run run' _ => closes_of_entryTail run run'
  exact replays_entryTail h (by simp [Expr.gauge]) fun whole => ⟨trivial, whole⟩

/-- The entries of an object are read again, if the keys in parentheses and brackets are settled. -/
theorem replays_entries (h : ∀ newlines, Replays n 0 True Node.gauge Follow (nested newlines))
    (keys : KeysSettle n) :
    Replays n 0 True entriesGauge EntriesEnd (Scan.many (entry nested)) := by
  have each : Replays n 0 True (Gauge.list Entry.gauge) EntriesEnd (Scan.many (entry nested)) := by
    refine (replays_entry h).many advances_entry
      (fun e w rest rest' run run' bound tight whole ends => ?_) fun _ _ ends => ends.entry
    have shorter := advances_entry _ _ _ run
    have brace : BraceAgain (w ++ rest) (w ++ rest') := by
      cases w with
      | nil => exact absurd shorter (Nat.lt_irrefl _)
      | cons c w => exact fun first => first
    -- behind an entry the key of the next one follows
    rw [entry_eq] at run
    have tight : 0 + weight w ≤ Entry.gauge.weight e := by simpa using tight
    obtain ⟨key, u, v, rfl, read, -, heavy, sound, again⟩ :=
      (replays_between h true false false).front
      (fun key => replays_entryTail h (by simp [Expr.gauge]) fun whole => ⟨trivial, whole⟩)
      (fun _ _ _ _ _ run run' _ => closes_of_entryTail run run') run bound tight whole
    obtain ⟨read', -, closes⟩ := again rest' ends
    rw [List.length_append] at bound
    refine ⟨brace, ?_⟩
    rw [List.append_assoc, List.append_assoc]
    exact keys u _ _ key read read' (by omega) heavy sound closes
  refine each.gauge (fun es => ?_) fun es _ whole => ⟨trivial, ?_⟩
  · simp [entriesGauge, Gauge.list, Entry.gauge, weight_entriesChars]
  · exact wholeEntries_iff.mp whole

/-- An object is read again whatever is behind it, since it ends with its brace. -/
theorem replays_objectTail (h : ∀ newlines, Replays n 0 True Node.gauge Follow (nested newlines))
    (keys : KeysSettle n) {credit : Nat} {claim : Prop} (paid : weight ['{'] ≤ credit)
    (holds : claim) : Replays n credit claim Node.gauge (fun _ _ => True) (objectTail nested) := by
  have marks : heft '{' = 1 ∧ heft '}' = 1 := by decide
  refine Replays.bind (replays_entries h keys) (fun entries => ?_)
    fun entries node w rest rest' run run' _ => ?_
  · obtain ⟨light, same⟩ := distinct_spec entries
    simp only [weight_cons, weight_nil, marks] at paid
    refine replays_closing (by decide) (k := fun b => .object (Entry.distinct entries) b)
      (fun b => ?_) fun b tight whole => ⟨holds, ?_⟩
    · simp only [Node.chars, entriesGauge, weight_cons, weight_append, weight_nil, marks]
      omega
    · simp only [Node.chars, entriesGauge, weight_cons, weight_append, weight_nil, marks] at tight
      rw [same (by omega)] at whole
      exact whole
  · obtain ⟨b, gap, rfl⟩ := closing_eq_some_iff.mp run
    obtain ⟨b', gap', same⟩ := closing_eq_some_iff.mp run'
    cases same
    exact ⟨b, rest, rest', gap, gap'⟩

theorem replays_object (h : ∀ newlines, Replays n 0 True Node.gauge Follow (nested newlines))
    (keys : KeysSettle n) :
    Replays (n + 1) 0 True Node.gauge (fun _ _ => True) (object nested) := by
  refine Replays.exactly_bind ?_
  rw [seesLoop_eq]
  refine Replays.peek_bind (fun loops => ?_) fun loops node w rest rest' run => ?_
  · cases loops with
    | true => exact replays_objectForTail h (by simp) trivial
    | false => exact replays_objectTail h keys (by simp) trivial
  · cases loops with
    | true => exact beginsLoop_eq (.inr rfl) opens_objectForTail ends_objectForTail run rest'
    | false => exact beginsLoop_eq (.inr rfl) opens_objectTail ends_objectTail run rest'

end Productions

end TerraformPins.Hcl.Grammar
