import TerraformPins.Proofs.Hcl.Object

/-!
# Replaying terms

The first character of a term tells which kind of term it is. A term that ends with its closing mark
does not depend on what is behind it. A word or a number must not go on, and behind a word no
arguments of a call may follow.

## Main definitions

* `Grammar.TermEnd` — two rests behind a term

## Main results

* `Grammar.replays_term` — a term
-/

namespace TerraformPins.Hcl.Grammar

open Scan

/-! ### Terms take something -/

theorem advances_unsigned : Number.unsigned.Advances := by
  have digits : (run1 Char.isDigit).Advances := (advances_one _).bind fun _ =>
    (shortens_run _).bind fun _ => shortens_pure _
  have fraction : Number.fraction.Shortens := (shortens_exactly _).bind fun _ => shortens_run1 _
  have sign : (Scan.optional (one fun c => c == '+' || c == '-')).Shortens := by
    refine Shortens.optional fun cs c rest taken => ?_
    exact ⟨[c], (one_eq_some_iff.mp taken).2⟩
  have exponent : Number.exponent.Shortens := by
    refine Shortens.bind (fun cs c rest taken => ⟨[c], (one_eq_some_iff.mp taken).2⟩) fun _ => ?_
    exact sign.bind fun _ => (shortens_run1 _).bind fun _ => shortens_pure _
  have pieces : Number.pieces.Advances := digits.bind fun _ => fraction.optional.bind fun _ =>
    exponent.optional.bind fun _ => shortens_pure _
  exact pieces.bind fun _ => (shortens_guard _).bind fun _ => shortens_pure _

theorem advances_signed : Number.signed.Advances :=
  (advances_exactly '-' []).bind fun _ => shortens_inline.bind fun _ =>
    (Number.replays_unsigned 0).shortens.bind fun _ => shortens_pure _

theorem advances_group : (group nested).Advances :=
  (advances_exactly '(' []).bind fun _ =>
    (shortens_across.bind fun _ => (shortens_nested true).bind fun _ =>
      shortens_across.bind fun _ => shortens_pure _).bind fun _ =>
    (shortens_exactly _).bind fun _ => shortens_pure _

theorem advances_quoted : (quoted nested).Advances := by
  refine (advances_exactly '"' []).bind fun _ => Shortens.bind
    (tracks_parts (n := 0) (fun newlines => .refl (shortens_nested newlines))
      (Quoted.replays_part 0).shortens).shortens fun parts => (shortens_exactly _).bind fun _ => ?_
  split <;> exact shortens_pure _

theorem advances_list : (list nested).Advances := by
  refine (advances_exactly '[' []).bind fun _ => shortens_seesLoop.bind fun loops => ?_
  cases loops with
  | true => exact ends_listForTail.shortens
  | false => exact ends_listTail.shortens

theorem advances_object : (object nested).Advances := by
  refine (advances_exactly '{' []).bind fun _ => shortens_seesLoop.bind fun loops => ?_
  cases loops with
  | true => exact ends_objectForTail.shortens
  | false => exact ends_objectTail.shortens

theorem advances_heredoc : (heredoc nested).Advances := by
  refine (advances_exactly '<' ['<']).bind fun _ => (shortens_exactly _).optional.bind fun dash =>
    shortens_identifier.bind fun word => shortens_lineEnd.bind fun _ => Shortens.bind
      (tracks_heredocLines (n := 0) (fun newlines => .refl (shortens_nested newlines))
        word).shortens fun found => ?_
  obtain ⟨parts, closing⟩ := found
  refine (shortens_exactly _).bind fun _ => ?_
  split <;> exact shortens_pure _

theorem advances_nameOrCall : (nameOrCall nested).Advances :=
  advances_identifier.bind fun word => (ends_callTail word).shortens.orElse (shortens_pure _)

/-- Every term takes at least one character. -/
theorem advances_term : (term nested).Advances :=
  advances_group.map.orElse ((advances_quoted.orElse (advances_list.orElse (advances_object.orElse
    ((advances_unsigned.orElse advances_signed).map.orElse
      (advances_heredoc.orElse advances_nameOrCall))))).map)

/-! ### Terms are read again -/

/-- Two rests behind a term. -/
structure TermEnd (r r' : Chars) : Prop where
  alike : Alike r r'
  call : ∀ function, callTail nested function r = none → callTail nested function r' = none

/-- A term by its written form. -/
def termGauge : Gauge (Node × Bool) := ⟨fun x => weight x.1.chars, fun x => x.1.Whole⟩

/-- A name does not begin with a digit. -/
theorem isDigit_of_isWordStart {c : Char} (h : isWordStart c = true) : c.isDigit = false := by
  rw [Bool.eq_false_iff]
  intro digit
  obtain ⟨-, low⟩ := Char.isDigit_iff_toNat.mp digit
  have letter : c.isUpper = true ∨ c.isLower = true ∨ c = '_' := by
    simpa [isWordStart, show c.isAlpha = (c.isUpper || c.isLower) from rfl, or_assoc] using h
  have high : 'A'.toNat ≤ c.toNat := by
    rcases letter with upper | lower | rfl
    · exact UInt32.le_iff_toNat_le.mp (of_decide_eq_true upper).1
    · have bounds : (decide (c.val ≥ 'a'.val) && decide (c.val ≤ 'z'.val)) = true := lower
      have small : 'a'.toNat ≤ c.toNat :=
        UInt32.le_iff_toNat_le.mp (of_decide_eq_true (Bool.and_eq_true_iff.mp bounds).1)
      exact Nat.le_trans (by decide) small
    · decide
  have apart : '9'.toNat < 'A'.toNat := by decide
  omega

theorem leads_number : Leads (fun c => c.isDigit || c == '-')
    (Node.number <$> (Number.unsigned <|> Number.signed)) :=
  (Number.leads_unsigned.either Number.leads_signed).map

theorem leads_nameOrCall : Leads isWordStart (nameOrCall nested) :=
  leads_identifier.bind

theorem leads_heredoc : Leads (· == '<') (heredoc nested) :=
  (leads_exactly '<' ['<']).bind

theorem leads_object : Leads (· == '{') (object nested) :=
  (leads_exactly '{' []).bind

theorem leads_list : Leads (· == '[') (list nested) :=
  (leads_exactly '[' []).bind

theorem leads_quoted : Leads (· == '"') (quoted nested) :=
  (leads_exactly '"' []).bind

theorem leads_group : Leads (· == '(') (group nested) :=
  (leads_exactly '(' []).bind

/-- The kinds of terms. -/
theorem term_cases {t r : Chars} {base : Node} {grouped : Bool}
    (run : term nested t = some ((base, grouped), r)) :
    (grouped = true ∧ group nested t = some (base, r)) ∨
      (grouped = false ∧ (quoted nested t = some (base, r) ∨ list nested t = some (base, r) ∨
        object nested t = some (base, r) ∨
        (∃ cs, base = .number cs ∧
          (Number.unsigned t = some (cs, r) ∨ Number.signed t = some (cs, r))) ∨
        heredoc nested t = some (base, r) ∨ nameOrCall nested t = some (base, r))) := by
  have untag : ∀ {p : Scan Node} {tag : Bool}, ((·, tag) <$> p) t = some ((base, grouped), r) →
      grouped = tag ∧ p t = some (base, r) := by
    intro p tag run
    rw [map_apply, Option.map_eq_some_iff] at run
    obtain ⟨⟨a, u⟩, taken, same⟩ := run
    cases same
    exact ⟨rfl, taken⟩
  -- The reader tries the kinds one after the other, so there is one alternative for each.
  rcases orElse_eq_some_iff.mp run with first | ⟨-, second⟩
  · exact .inl (untag first)
  obtain ⟨plain, run⟩ := untag second
  refine .inr ⟨plain, ?_⟩
  rcases orElse_eq_some_iff.mp run with quote | ⟨-, run⟩
  · exact .inl quote
  rcases orElse_eq_some_iff.mp run with bracket | ⟨-, run⟩
  · exact .inr (.inl bracket)
  rcases orElse_eq_some_iff.mp run with brace | ⟨-, run⟩
  · exact .inr (.inr (.inl brace))
  rcases orElse_eq_some_iff.mp run with number | ⟨-, run⟩
  · rw [map_apply, Option.map_eq_some_iff] at number
    obtain ⟨⟨cs, u⟩, taken, same⟩ := number
    cases same
    refine .inr (.inr (.inr (.inl ⟨cs, rfl, ?_⟩)))
    exact (orElse_eq_some_iff.mp taken).imp id And.right
  exact .inr (.inr (.inr (.inr (orElse_eq_some_iff.mp run |>.imp id And.right))))

/-- The first character of a term tells its kind. -/
theorem term_head {c : Char} {u r : Chars} {base : Node} {grouped : Bool}
    (run : term nested (c :: u) = some ((base, grouped), r)) :
    (c = '(' ∧ group nested (c :: u) = some (base, r)) ∨ c = '"' ∨
      (c = '[' ∧ list nested (c :: u) = some (base, r)) ∨ c = '{' ∨ (c.isDigit || c == '-') = true ∨
      (c = '<' ∧ heredoc nested (c :: u) = some (base, r)) ∨
      (isWordStart c = true ∧ grouped = false ∧ nameOrCall nested (c :: u) = some (base, r)) := by
  have lead : ∀ {α : Type} {p : Scan α} {f : Char → Bool} {z : α × Chars}, Leads f p →
      p (c :: u) = some z → f c = true := by
    intro α p f z leads taken
    obtain ⟨d, v, ok, same⟩ := leads _ _ taken
    rwa [(List.cons.inj same).1]
  rcases term_cases run with ⟨-, grouped⟩ |
    ⟨plain, quote | bracket | brace | ⟨cs, -, number⟩ | fence | name⟩
  · exact .inl ⟨beq_iff_eq.mp (lead leads_group grouped), grouped⟩
  · exact .inr (.inl (beq_iff_eq.mp (lead leads_quoted quote)))
  · exact .inr (.inr (.inl ⟨beq_iff_eq.mp (lead leads_list bracket), bracket⟩))
  · exact .inr (.inr (.inr (.inl (beq_iff_eq.mp (lead leads_object brace)))))
  · refine .inr (.inr (.inr (.inr (.inl ?_))))
    rcases number with digits | signed
    · rw [lead Number.leads_unsigned digits, Bool.true_or]
    · rw [lead Number.leads_signed signed, Bool.or_true]
  · exact .inr (.inr (.inr (.inr (.inr (.inl ⟨beq_iff_eq.mp (lead leads_heredoc fence), fence⟩)))))
  · exact .inr (.inr (.inr (.inr (.inr (.inr ⟨lead leads_nameOrCall name, plain, name⟩)))))

/-- A term does not begin with a sign that is not part of a number. -/
theorem unaryOp_eq_none_of_term {t : Chars} {x : (Node × Bool) × Chars}
    (run : term nested t = some x) : unaryOp t = none := by
  obtain ⟨⟨base, grouped⟩, r⟩ := x
  refine Option.eq_none_iff_forall_ne_some.mpr fun y sign => ?_
  obtain ⟨u, b, -, which⟩ := unaryOp_eq_some_iff.mp (show unaryOp t = some (y.1, y.2) from sign)
  have bad : ∀ {α : Type} {p : Scan α} {f : Char → Bool} {z : α × Chars}, Leads f p →
      f '!' = false → f '-' = false → p t ≠ some z := by
    intro α p f z leads bang minus taken
    rcases which with ⟨-, rfl⟩ | ⟨-, rfl, -⟩
    · rw [leads.eq_none bang] at taken
      cases taken
    · rw [leads.eq_none minus] at taken
      cases taken
  rcases term_cases run with ⟨-, grouped⟩ |
    ⟨-, quote | bracket | brace | ⟨cs, -, digits | signed⟩ | fence | name⟩
  · exact bad leads_group (by decide) (by decide) grouped
  · exact bad leads_quoted (by decide) (by decide) quote
  · exact bad leads_list (by decide) (by decide) bracket
  · exact bad leads_object (by decide) (by decide) brace
  · exact bad Number.leads_unsigned (by decide) (by decide) digits
  · -- Only a number can begin with a minus, and the sign is taken only where no number begins.
    rcases which with ⟨-, rfl⟩ | ⟨-, rfl, none⟩
    · rw [Number.leads_signed.eq_none (by decide)] at signed
      cases signed
    · rw [none] at signed
      cases signed
  · exact bad leads_heredoc (by decide) (by decide) fence
  · exact bad leads_nameOrCall (by decide) (by decide) name

/-- A term that begins with a digit is a number without sign. -/
theorem unsigned_of_term {c : Char} {u : Chars} {x : (Node × Bool) × Chars}
    (run : term nested (c :: u) = some x) (digit : c.isDigit = true) :
    Number.unsigned (c :: u) ≠ none := by
  obtain ⟨⟨base, grouped⟩, r⟩ := x
  have bad : ∀ {α : Type} {p : Scan α} {f : Char → Bool} {z : α × Chars}, Leads f p →
      (∀ d, d.isDigit = true → f d = false) → p (c :: u) ≠ some z := by
    intro α p f z leads none taken
    rw [leads.eq_none (none c digit)] at taken
    cases taken
  have mark : ∀ m : Char, m.isDigit = false → ∀ d, d.isDigit = true → (d == m) = false := by
    intro m other d digit
    rw [beq_eq_false_iff_ne]
    rintro rfl
    rw [other] at digit
    cases digit
  -- Every other kind of term begins with a character of its own.
  rcases term_cases run with ⟨-, grouped⟩ |
    ⟨-, quote | bracket | brace | ⟨cs, -, digits | signed⟩ | fence | name⟩
  · exact absurd grouped (bad leads_group (mark '(' (by decide)))
  · exact absurd quote (bad leads_quoted (mark '"' (by decide)))
  · exact absurd bracket (bad leads_list (mark '[' (by decide)))
  · exact absurd brace (bad leads_object (mark '{' (by decide)))
  · simp [digits]
  · exact absurd signed (bad Number.leads_signed (mark '-' (by decide)))
  · exact absurd fence (bad leads_heredoc (mark '<' (by decide)))
  · refine absurd name (bad leads_nameOrCall fun d digit => ?_)
    rw [Bool.eq_false_iff]
    intro word
    rw [isDigit_of_isWordStart word] at digit
    cases digit

section Productions

variable {n : Nat} (h : ∀ newlines, Replays n 0 True Node.gauge Follow (nested newlines))

/-- A number is read again in front of a rest that can stand behind a term. -/
theorem replays_number (n : Nat) : Replays n 0 True Node.gauge TermEnd
    (Node.number <$> (Number.unsigned <|> Number.signed)) := by
  have digits : Replays n 0 True Gauge.text TermEnd Number.unsigned :=
    (Number.replays_unsigned n).mono (fun _ _ ends => ends.alike) (Nat.le_refl n)
  have signed : Replays n 0 True Gauge.text TermEnd Number.signed :=
    (Number.replays_signed n).mono (fun _ _ ends => ends.alike) (Nat.le_refl n)
  have both :=
    digits.orElse_of_leads signed Number.leads_unsigned Number.leads_signed fun c minus => by
    rw [beq_iff_eq.mp minus]
    decide
  exact both.map (fun a => by simp [Node.gauge, Node.chars, Gauge.text]) fun a _ _ =>
    ⟨trivial, trivial⟩

include h

theorem replays_nameOrCall : Replays (n + 1) 0 True Node.gauge TermEnd (nameOrCall nested) := by
  refine Replays.bind (replays_identifier (n + 1)) (fun word => ?_)
    fun word node w rest rest' run run' ends => ?_
  · have call : Replays (n + 1) (0 + Gauge.text.weight word) (True ∧
        Gauge.text.sound word) Node.gauge TermEnd (callTail nested word) :=
      (replays_callTail h (by simp [Gauge.text]) ⟨trivial, trivial⟩).mono (fun _ _ _ => trivial)
        (Nat.le_refl _)
    refine call.orElse
      (Replays.pure ?_ fun _ _ => ⟨trivial, trivial⟩) fun a w rest rest' failed run _ ends => ?_
    · simp [Node.gauge, Node.chars, Gauge.text]
    · obtain rfl : w = [] := by simpa using congrArg (fun x => x.map Prod.snd) run
      exact ends.call word failed
  · rcases orElse_eq_some_iff.mp run with call | ⟨-, plain⟩
    · -- in front of the arguments stands blank space or the parenthesis
      have shorter := (ends_callTail word).advances _ _ _ call
      obtain ⟨b, t, gap, more⟩ := bind_eq_some_iff.mp call
      obtain ⟨u, rfl, -⟩ := exactly_bind_eq_some_iff.mp more
      cases w with
      | nil => exact absurd shorter (Nat.lt_irrefl _)
      | cons c w =>
        refine .inr fun d first => ?_
        obtain rfl := Option.some.inj first
        rcases head_of_across gap rfl with rfl | soft
        · decide
        · exact endsWord_of_soft soft
    · obtain rfl : w = [] := by simpa using congrArg (fun x => x.map Prod.snd) plain
      exact ends.alike

/-- A term is read again, whichever it is. -/
theorem replays_term (keys : KeysSettle n) :
    Replays (n + 1) 0 True termGauge TermEnd (term nested) := by
  have closed : ∀ {p : Scan Node}, Replays (n + 1) 0 True Node.gauge (fun _ _ => True) p →
      Replays (n + 1) 0 True Node.gauge TermEnd p :=
    fun replays => replays.mono (fun _ _ _ => trivial) (Nat.le_refl _)
  have other : ∀ {d : Char} {f : Char → Bool}, f d = false → ∀ c, f c = true →
      (c == d) = false := by
    intro d f no c yes
    rw [beq_eq_false_iff_ne]
    rintro rfl
    rw [no] at yes
    cases yes
  -- the first character tells the kinds apart
  have leadsFence := leads_heredoc.either leads_nameOrCall
  have leadsNumber := leads_number.either leadsFence
  have leadsObject := leads_object.either leadsNumber
  have leadsList := leads_list.either leadsObject
  have fence := (closed (replays_heredoc h)).orElse_of_leads (replays_nameOrCall h) leads_heredoc
    leads_nameOrCall (other (by decide))
  have number :=
    (replays_number (n + 1)).orElse_of_leads fence leads_number leadsFence fun c ok => by
    rcases Bool.or_eq_true_iff.mp ok with same | word
    · rw [beq_iff_eq.mp same]
      decide
    · rw [isDigit_of_isWordStart word, Bool.false_or, beq_eq_false_iff_ne]
      rintro rfl
      revert word
      decide
  have object := (closed (replays_object h keys)).orElse_of_leads number leads_object leadsNumber
    (other (by decide))
  have list := (closed (replays_list h)).orElse_of_leads object leads_list leadsObject
    (other (by decide))
  have plain := (closed (replays_quoted h)).orElse_of_leads list leads_quoted leadsList
    (other (by decide))
  have tagged : ∀ {p : Scan Node} (grouped : Bool), Replays (n + 1) 0 True Node.gauge TermEnd p →
      Replays (n + 1) 0 True termGauge TermEnd ((·, grouped) <$> p) := fun grouped replays =>
    replays.map (fun a => by simp [termGauge, Node.gauge]) fun a _ whole => ⟨trivial, whole⟩
  exact (tagged true (closed (replays_group h))).orElse_of_leads
    (tagged false plain) leads_group.map (leads_quoted.either leadsList).map (other (by decide))

end Productions

end TerraformPins.Hcl.Grammar
