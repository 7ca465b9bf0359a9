import TerraformPins.Proofs.Hcl.Phrase

/-!
# Replaying what is in brackets

Lists, calls, groups and the loops in brackets end with their closing bracket, so whatever stands
behind it does not matter. Whether a list or an object is a loop is seen from what is inside, too.

## Main definitions

* `Grammar.ItemsEnd` — two rests behind items with commas between them

## Main results

* `Grammar.replays_items` — items with commas between them
* `Grammar.replays_list`, `Grammar.replays_group`, `Grammar.replays_callTail`
-/

namespace TerraformPins.Hcl.Grammar

open Scan

/-- There is no expression behind blank space where no expression can begin. -/
theorem spaced_eq_none {t : Chars}
    (h : ∀ c, (Blank.skip true t).head? = some c → isStart c = false) : spaced nested t = none := by
  obtain ⟨b, run⟩ := Blank.exists_gap true t
  have run : Blank.across t = some (b, Blank.skip true t) := run
  rw [spaced, between, bind_of_eq_some run]
  exact bind_of_eq_none ((leads_nested false).eq_none_of_head h)

theorem shortens_spaced : (spaced nested).Shortens :=
  (tracks_spaced (n := 0) fun newlines => .refl (shortens_nested newlines)).shortens

/-- A mark begins no expression. -/
theorem isStart_of_isMark {c : Char} (h : isMark c = true) : isStart c = false := by
  have each : c = ',' ∨ c = ']' ∨ c = ')' ∨ c = '}' ∨ c = '~' ∨ c = ':' := by simpa [isMark] using h
  rcases each with rfl | rfl | rfl | rfl | rfl | rfl <;> decide

/-! ### Items -/

/-- An item behind a comma. -/
def nextItem : Scan Expr := do
  let _ ← exactly [',']
  spaced nested

/-- One or more items with commas between them. -/
def someItems : Scan (List Expr) := do
  let first ← spaced nested
  let more ← Scan.many nextItem
  pure (first :: more)

/-- Items are one and more behind commas, or none. -/
theorem items_eq : items nested = (someItems <|> pure []) := by
  funext cs
  rw [items, orElse_apply]
  cases run : spaced nested cs with
  | none =>
    rw [bind_of_eq_some (optional_of_eq_none run), someItems, bind_of_eq_none run, Option.none_or]
  | some x =>
    obtain ⟨more, t, chain⟩ := exists_chain nextItem x.2
    have repeated := many_eq_some_of_chain chain
    rw [bind_of_eq_some (optional_of_eq_some run), someItems, bind_of_eq_some run,
      bind_of_eq_some repeated]
    exact bind_of_eq_some repeated

theorem items_of_none {cs : Chars} (noItem : spaced nested cs = none) :
    items nested cs = some ([], cs) := by
  rw [items_eq, orElse_of_eq_none (show someItems cs = none from bind_of_eq_none noItem)]
  rfl

theorem items_of_single {cs r : Chars} {e : Expr} (item : spaced nested cs = some (e, r))
    (last : nextItem r = none) : items nested cs = some ([e], r) := by
  have stops : Scan.many nextItem r = some ([], r) :=
    many_eq_some_of_chain (.nil fun a r taken => by rw [last] at taken; cases taken)
  rw [items_eq]
  refine orElse_of_eq_some ?_
  rw [someItems, bind_of_eq_some item, bind_of_eq_some stops]
  rfl

/-- Two rests behind items with commas between them. -/
structure ItemsEnd (r r' : Chars) : Prop where
  first : spaced nested r = none → spaced nested r' = none
  more : Blank.token true r = none → Closes r r' ∧ (nextItem r = none → nextItem r' = none)

theorem nextItem_eq_none {c : Char} {t : Chars} (ne : c ≠ ',') : nextItem (c :: t) = none :=
  exactly_bind_eq_none (by simpa using ne)

/-- Two rests end items if a closing bracket is next in both, behind blank space that begins
alike. -/
theorem itemsEnd_of_close {c : Char} (h : c = ']' ∨ c = ')') {r r' b b' t t' : Chars}
    (run : Blank.across r = some (b, c :: t)) (run' : Blank.across r' = some (b', c :: t'))
    (head : r.head? = r'.head?) : ItemsEnd r r' := by
  have mark : isMark c = true := by rcases h with rfl | rfl <;> decide
  have comma : c ≠ ',' := by rcases h with rfl | rfl <;> decide
  refine ⟨fun _ => spaced_eq_none fun d first => ?_, fun tight => ?_⟩
  · rw [Blank.skip_eq_of_across run'] at first
    obtain rfl := Option.some.inj first
    exact isStart_of_isMark mark
  · obtain rfl : r = c :: t := by
      have stays : Blank.across r = some ([], r) := Blank.across_eq_of_token_eq_none tight
      rw [stays] at run
      cases run
      rfl
    obtain ⟨u, rfl⟩ := List.head?_eq_some_iff.mp head.symm
    exact ⟨closes_of_mark mark mark, fun _ => nextItem_eq_none comma⟩

/-- Two rests with a comma that is last end items if no item can stand behind the comma. -/
theorem itemsEnd_of_comma {c : Char} (h : c = ']' ∨ c = ')') {b u u' t : Chars}
    (run : Blank.across u' = some (b, c :: t)) : ItemsEnd (',' :: u) (',' :: u') := by
  have mark : isMark c = true := by rcases h with rfl | rfl <;> decide
  refine ⟨fun _ => spaced_eq_none fun d first => ?_, fun _ =>
    ⟨closes_of_mark (by decide) (by decide), fun _ => ?_⟩⟩
  · rw [Blank.skip_eq_of_hard (firm_of_mark (by decide) u').hard] at first
    obtain rfl := Option.some.inj first
    decide
  · have taken : exactly [','] (',' :: u') = some ([','], u') := exactly_append [','] u'
    rw [nextItem, bind_of_eq_some taken]
    refine spaced_eq_none fun d first => ?_
    rw [Blank.skip_eq_of_across run] at first
    obtain rfl := Option.some.inj first
    exact isStart_of_isMark mark

theorem itemsEnd_of_dots {u u' : Chars} : ItemsEnd ('.' :: '.' :: u) ('.' :: '.' :: u') := by
  refine ⟨fun _ => spaced_eq_none fun d first => ?_, fun _ =>
    ⟨closes_of_marks (by decide), fun _ => nextItem_eq_none (by decide)⟩⟩
  have hard : Blank.Hard true ('.' :: '.' :: u') := fun c same => by
    obtain rfl := Option.some.inj same
    decide
  rw [Blank.skip_eq_of_hard hard] at first
  obtain rfl := Option.some.inj first
  decide

/-- Behind an expression there is no blank space left. -/
theorem token_of_spaced {cs r : Chars} {e : Expr} (run : spaced nested cs = some (e, r)) :
    Blank.token true r = none := by
  obtain ⟨b, t, -, more⟩ := bind_eq_some_iff.mp run
  obtain ⟨node, u, -, more⟩ := bind_eq_some_iff.mp more
  obtain ⟨a, v, gap, last⟩ := bind_eq_some_iff.mp more
  cases last
  rw [← Blank.skip_eq_of_across gap]
  exact Blank.token_skip true u

/-- Behind items stands no blank space, if none stands in front of the first comma. -/
theorem token_of_items {cs r : Chars} {first : Expr} {items : List Expr}
    (run : (do
      let more ← Scan.many nextItem
      pure (first :: more)) cs = some (items, r)) (tight : Blank.token true cs = none) :
    Blank.token true r = none := by
  obtain ⟨more, t, repeated, last⟩ := bind_eq_some_iff.mp run
  cases last
  have chain := many_iff_chain.mp repeated
  clear repeated run
  induction chain with
  | nil => exact tight
  | cons taken _ _ ih =>
    obtain ⟨u, -, item⟩ := exactly_bind_eq_some_iff.mp taken
    exact ih (token_of_spaced item)

/-- More items begin with a comma, if there are any. -/
theorem head_of_many_nextItem {cs r : Chars} {items : List Expr}
    (run : Scan.many nextItem cs = some (items, r)) (shorter : r.length < cs.length) :
    cs.head? = some ',' := by
  cases many_iff_chain.mp run with
  | nil => omega
  | cons taken =>
    obtain ⟨u, rfl, -⟩ := exactly_bind_eq_some_iff.mp taken
    rfl

theorem advances_nextItem : nextItem.Advances :=
  (advances_exactly _ _).bind fun _ => shortens_spaced

section Productions

variable {n : Nat} (h : ∀ newlines, Replays n 0 True Node.gauge Follow (nested newlines))
include h

/-- One more item is read again. -/
theorem replays_nextItem :
    Replays n 0 True ⟨fun e => 1 + weight (e.chars []), Expr.Whole⟩ Closes nextItem := by
  refine Replays.lead_bind
    ((replays_spaced h).gauge (fun e => ?_) fun e _ whole => ⟨trivial, whole⟩)
  have comma : weight [','] = 1 := by decide
  simp [Expr.gauge, comma]

omit h in
theorem someItems_ne_none {cs : Chars} {x : Expr × Chars} (item : spaced nested cs = some x) :
    someItems cs ≠ none := by
  obtain ⟨more, t, chain⟩ := exists_chain nextItem x.2
  have repeated := many_eq_some_of_chain chain
  rw [someItems, bind_of_eq_some item, bind_of_eq_some repeated]
  simp

/-- One item or more are read again. -/
theorem replays_someItems : Replays n 0 True itemsGauge
    (fun r r' => Closes r r' ∧ (nextItem r = none → nextItem r' = none)) someItems := by
  have more : Replays n 0 True (Gauge.list ⟨fun e => 1 + weight (e.chars []), Expr.Whole⟩)
      (fun r r' => Closes r r' ∧ (nextItem r = none → nextItem r' = none))
        (Scan.many nextItem) := by
    refine (replays_nextItem h).many advances_nextItem (fun a w rest rest' run run' _ _ _ _ => ?_)
      fun rest rest' ends => ends
    obtain ⟨u, same, -⟩ := exactly_bind_eq_some_iff.mp run
    obtain ⟨u', same', -⟩ := exactly_bind_eq_some_iff.mp run'
    rw [same, same']
    exact closes_of_mark (by decide) (by decide)
  refine Replays.bind (replays_spaced h)
    (fun first => ?_) fun first items w rest rest' run run' ends => ?_
  · refine more.bind_pure (fun more => ?_) fun more _ whole => ?_
    · simp only [itemsGauge, itemsChars, Expr.gauge, Gauge.list, weight_append,
        weight_moreItemsChars]
      omega
    · simp only [itemsGauge, WholeItems, wholeItems_iff] at whole
      exact ⟨⟨trivial, whole.1⟩, whole.2⟩
  · -- behind the first item there is another one, or the end
    cases w with
    | nil => exact ends.1
    | cons c w =>
      obtain ⟨more, t, repeated, last⟩ := bind_eq_some_iff.mp run
      cases last
      have shorter : rest.length < (c :: w ++ rest).length := by
        rw [List.length_append]
        exact Nat.lt_add_of_pos_left (Nat.succ_pos _)
      have comma := head_of_many_nextItem repeated shorter
      obtain rfl := Option.some.inj comma
      exact closes_of_mark (by decide) (by decide)

/-- The items in brackets are read again, also if there are none. -/
theorem replays_items : Replays n 0 True itemsGauge ItemsEnd (items nested) := by
  rw [items_eq]
  refine Replays.orElse ?some (Replays.pure (Nat.le_refl _) fun _ _ => trivial)
    fun a w rest rest' failed run _ ends => ?fails
  case fails =>
    obtain rfl : w = [] := by simpa using congrArg (fun x => x.map Prod.snd) run
    have noItem : spaced nested rest = none :=
      Option.eq_none_iff_forall_ne_some.mpr fun x taken => someItems_ne_none taken failed
    exact bind_of_eq_none (ends.first noItem)
  case some =>
    refine (replays_someItems h).mono_of_run fun cs items rest rest' run ends => ends.more ?_
    obtain ⟨first, t, item, more⟩ := bind_eq_some_iff.mp run
    exact token_of_items more (token_of_spaced item)

/-! ### Lists and calls -/

omit h in
/-- Blank space and a closing bracket. -/
theorem replays_closing {credit : Nat} {claim : Prop} {c : Char} (mark : isMark c = true)
    {k : Chars → Node} (light : ∀ b, weight (k b).chars ≤ credit + weight b + weight [c])
    (implies : ∀ b, credit + weight b + weight [c] ≤ weight (k b).chars → (k b).Whole → claim) :
    Replays n credit claim Node.gauge (fun _ _ => True) (do
      let closing ← Blank.across
      let _ ← exactly [c]
      pure (k closing)) := by
  refine Replays.bind (Blank.replays_gap n true)
    (fun b => Replays.lead_bind (Replays.pure (light b) ?_))
    fun b node w rest rest' run run' _ => ?_
  · exact fun tight whole => ⟨implies b tight whole, trivial⟩
  · obtain ⟨t, same, -⟩ := exactly_bind_eq_some_iff.mp run
    obtain ⟨t', same', -⟩ := exactly_bind_eq_some_iff.mp run'
    rw [same, same']
    exact (closes_of_mark mark mark).near true

omit h in
/-- What is closed by a bracket behind blank space. -/
theorem closing_eq_some_iff {c : Char} {k : Chars → Node} {cs r : Chars} {node : Node} :
    (do
      let closing ← Blank.across
      let _ ← exactly [c]
      pure (k closing) : Scan Node) cs = some (node, r) ↔
      ∃ b, Blank.across cs = some (b, c :: r) ∧ node = k b := by
  rw [bind_eq_some_iff]
  constructor
  · rintro ⟨b, t, gap, more⟩
    obtain ⟨u, rfl, last⟩ := exactly_bind_eq_some_iff.mp more
    cases last
    exact ⟨b, gap, rfl⟩
  · rintro ⟨b, gap, rfl⟩
    exact ⟨b, c :: r, gap, exactly_bind_eq_some_iff.mpr ⟨r, rfl, rfl⟩⟩

omit h in
/-- What may stand between the last item and the closing bracket: a comma, three dots or nothing. -/
structure Ending {ε : Type} (n : Nat) (E : Gauge ε) (q : Scan ε) : Prop where
  kinds : ∀ cs e r, q cs = some (e, r) → r = cs ∨ cs = ',' :: r ∨ cs = '.' :: '.' :: '.' :: r
  replays : Replays n 0 True E (fun _ r' => r'.head? ≠ some ',' ∧ r'.head? ≠ some '.') q

omit h in
/-- Items end in front of every ending and the closing bracket behind it. -/
theorem itemsEnd_of_ending {ε : Type} {E : Gauge ε} {q : Scan ε} {c : Char}
    (close : c = ']' ∨ c = ')') (ending : Ending n E q) {k : ε → Chars → Node} {node : Node}
    {w rest rest' : Chars} (run : (do
      let e ← q
      let closing ← Blank.across
      let _ ← exactly [c]
      pure (k e closing) : Scan Node) (w ++ rest) = some (node, rest))
    (run' : (do
      let e ← q
      let closing ← Blank.across
      let _ ← exactly [c]
      pure (k e closing) : Scan Node) (w ++ rest') = some (node, rest')) :
    ItemsEnd (w ++ rest) (w ++ rest') := by
  obtain ⟨e, t, first, more⟩ := bind_eq_some_iff.mp run
  obtain ⟨e', t', first', more'⟩ := bind_eq_some_iff.mp run'
  obtain ⟨b, gap, -⟩ := closing_eq_some_iff.mp more
  obtain ⟨b', gap', -⟩ := closing_eq_some_iff.mp more'
  -- neither a comma nor a dot is taken for blank space
  have noEnd : ∀ {d : Char} {b t u : Chars}, d = ',' ∨ d = '.' →
      Blank.across (d :: u) ≠ some (b, c :: t) := by
    intro d b t u which gap
    rcases head_of_across gap rfl with rfl | soft
    · rcases close with rfl | rfl <;> rcases which with h | h <;> cases h
    · rcases which with rfl | rfl <;> cases soft
  have nonempty : w ≠ [] := by
    rintro rfl
    have := congrArg List.length (Blank.across_split gap)
    have := (ending.replays.shortens _ _ _ first)
    obtain ⟨v, split⟩ := this
    have := congrArg List.length split
    simp only [List.nil_append, List.length_append, List.length_cons] at *
    omega
  obtain ⟨d, w, rfl⟩ := List.exists_cons_of_ne_nil nonempty
  rcases ending.kinds _ _ _ first with rfl | comma | dots
  · rcases ending.kinds _ _ _ first' with rfl | comma' | dots'
    · exact itemsEnd_of_close close gap gap' rfl
    · obtain ⟨rfl, -⟩ := List.cons.inj comma'
      exact absurd gap (noEnd (.inl rfl))
    · obtain ⟨rfl, -⟩ := List.cons.inj dots'
      exact absurd gap (noEnd (.inr rfl))
  · obtain ⟨rfl, -⟩ := List.cons.inj comma
    rcases ending.kinds _ _ _ first' with rfl | comma' | dots'
    · exact absurd gap' (noEnd (.inl rfl))
    · rw [comma, comma']
      exact itemsEnd_of_comma close gap'
    · cases dots'
  · obtain ⟨rfl, -⟩ := List.cons.inj dots
    rcases ending.kinds _ _ _ first' with rfl | comma' | dots'
    · exact absurd gap' (noEnd (.inr rfl))
    · cases comma'
    · rw [dots, dots']
      exact itemsEnd_of_dots

/-- Items, what ends them, and the closing bracket. -/
theorem replays_enclosed {credit : Nat} {claim : Prop} {ε : Type} {E : Gauge ε} {q : Scan ε}
    {none : ε} {c : Char} (close : c = ']' ∨ c = ')') (ending : Ending n E q)
    {k : List Expr → ε → Chars → Node}
    (light : ∀ items e b, (items = [] → e = none) → weight (k items e b).chars ≤
      credit + weight (itemsChars items) + (if items = [] then 0 else E.weight e) +
        weight b + weight [c])
    (implies : ∀ items e b, (k items e b).Whole → claim ∧ WholeItems items ∧ E.sound e) :
    Replays n credit claim Node.gauge (fun _ _ => True) (do
      let items ← items nested
      let e ← if items.isEmpty then pure none else q
      let closing ← Blank.across
      let _ ← exactly [c]
      pure (k items e closing)) := by
  have mark : isMark c = true := by rcases close with rfl | rfl <;> decide
  -- Without items nothing may end them, so that case reads no ending at all.
  have nothing : Ending n (⟨fun _ => 0, E.sound⟩ : Gauge ε) (pure none) :=
    ⟨fun cs e r run => by cases run; exact .inl rfl,
      Replays.pure (Nat.le_refl _) fun _ _ => trivial⟩
  refine Replays.bind (replays_items h) (fun found => ?_)
    fun found node w rest rest' run run' _ => ?_
  · cases found with
    | nil =>
      refine replays_closing mark (fun b => ?_) fun b _ whole => ?_
      · simpa [itemsGauge] using light [] none b fun _ => rfl
      · exact ⟨(implies _ _ _ whole).1, (implies _ _ _ whole).2.1⟩
    | cons first more =>
      refine Replays.bind ending.replays (fun e => ?_) fun e node w rest rest' run run' _ => ?_
      · refine replays_closing mark (fun b => ?_) fun b _ whole => ?_
        · have := light (first :: more) e b nofun
          simpa [itemsGauge] using this
        · have all := implies _ _ _ whole
          exact ⟨⟨all.1, all.2.1⟩, all.2.2⟩
      · obtain ⟨b, gap, -⟩ := closing_eq_some_iff.mp run'
        have other : ∀ d, (w ++ rest').head? = some d → d = c ∨ Blank.soft true d = true :=
          fun d => head_of_across gap
        refine ⟨fun comma => ?_, fun dot => ?_⟩
        · rcases other _ comma with rfl | soft
          · rcases close with h | h <;> cases h
          · cases soft
        · rcases other _ dot with rfl | soft
          · rcases close with h | h <;> cases h
          · cases soft
  · cases found with
    | nil => exact itemsEnd_of_ending close nothing run run'
    | cons first more => exact itemsEnd_of_ending close ending run run'

omit h in
/-- A list may end with a comma. -/
theorem ending_comma :
    Ending n (Gauge.option (Gauge.fixed [','])) (Scan.optional (exactly [','])) where
  kinds cs o r run := by
    rcases optional_eq_some_iff.mp run with ⟨a, -, taken⟩ | ⟨-, -, rfl⟩
    · exact .inr (.inl (exactly_eq_some_iff.mp taken).2)
    · exact .inl rfl
  replays := by
    refine (Replays.exactly n [',']).optional.mono (fun r r' ends => ⟨trivial, fun _ => ?_⟩)
      (Nat.le_refl n)
    refine (leads_exactly ',' []).eq_none_of_head fun c first => ?_
    rw [beq_eq_false_iff_ne]
    rintro rfl
    exact ends.1 first

/-- A list of items is read again whatever is behind it. -/
theorem replays_listTail {credit : Nat} {claim : Prop} (paid : weight ['['] ≤ credit)
    (holds : claim) : Replays n credit claim Node.gauge (fun _ _ => True) (listTail nested) := by
  have marks : heft ',' = 1 ∧ heft '[' = 1 ∧ heft ']' = 1 := by decide
  refine replays_enclosed h (.inl rfl) ending_comma (k := fun items o b => .list items o.isSome b)
    (fun items o b plain => ?_) fun items o b whole => ⟨holds, whole, fun _ _ => trivial⟩
  simp only [weight_cons, weight_nil, marks] at paid
  simp only [Node.chars, weight_cons, weight_append, weight_nil, marks]
  cases items with
  | nil =>
    obtain rfl := plain rfl
    simp only [Option.isSome_none, Bool.false_eq_true, if_false, if_true, weight_nil]
    omega
  | cons first more =>
    cases o <;> simp only [Option.isSome_none, Option.isSome_some, Bool.false_eq_true, if_false,
      if_true, reduceCtorEq, Gauge.option, Gauge.fixed, Option.map, Option.getD, weight_cons,
      weight_nil, marks] <;> omega

omit h in
/-- A call may end with a comma or with three dots. -/
theorem ending_callEnd : Ending n ⟨fun e => weight e.chars, fun _ => True⟩ callEnd where
  kinds cs e r run := by
    rcases orElse_eq_some_iff.mp run with comma | ⟨-, run⟩
    · obtain ⟨t, rfl, last⟩ := exactly_bind_eq_some_iff.mp comma
      cases last
      exact .inr (.inl rfl)
    rcases orElse_eq_some_iff.mp run with dots | ⟨-, plain⟩
    · obtain ⟨t, rfl, last⟩ := exactly_bind_eq_some_iff.mp dots
      cases last
      exact .inr (.inr rfl)
    · cases plain
      exact .inl rfl
  replays := by
    refine Replays.orElse (Replays.lead_bind (Replays.pure ?_ fun _ _ => trivial))
      (Replays.orElse (Replays.lead_bind (Replays.pure ?_ fun _ _ => trivial))
        (Replays.pure ?_ fun _ _ => trivial) ?_) ?_
    · decide
    · decide
    · decide
    · -- Where nothing is taken there is no comma in the other text either, since the ends are
      -- alike.
      intro e w rest rest' _ run _ ends
      obtain rfl : w = [] := by simpa using congrArg (fun x => x.map Prod.snd) run
      exact exactly_bind_eq_none ends.2
    · intro e w rest rest' _ _ run' ends
      rcases orElse_eq_some_iff.mp run' with dots | ⟨-, plain⟩
      · obtain ⟨t, same, -⟩ := exactly_bind_eq_some_iff.mp dots
        rw [same]
        exact exactly_bind_eq_none (by simp)
      · obtain rfl : w = [] := by simpa using congrArg (fun x => x.map Prod.snd) plain
        exact exactly_bind_eq_none ends.1

/-- A call is read again whatever is behind it. -/
theorem replays_callTail {credit : Nat} {claim : Prop} {function : Chars}
    (paid : weight function ≤ credit) (holds : claim) :
    Replays (n + 1) credit claim Node.gauge (fun _ _ => True) (callTail nested function) := by
  have marks : heft '(' = 1 ∧ heft ')' = 1 := by decide
  refine Replays.bind (Blank.replays_gap (n + 1) true) (fun gap => Replays.exactly_bind ?_)
    fun gap node w rest rest' run run' _ => ?_
  · refine replays_enclosed h (.inr rfl) ending_callEnd
      (k := fun items e b => .call function gap items e b)
      (fun items e b plain => ?_) fun items e b whole => ⟨⟨holds, trivial⟩, whole, trivial⟩
    simp only [Node.chars, Gauge.text, weight_cons, weight_append, weight_nil, marks]
    -- Without items there is no mark behind them that would have to be paid for.
    cases items with
    | nil =>
      obtain rfl := plain rfl
      have none : weight CallEnd.plain.chars = 0 := rfl
      simp only [none, if_true]
      omega
    | cons first more =>
      simp only [reduceCtorEq, if_false]
      omega
  · obtain ⟨t, same, -⟩ := exactly_bind_eq_some_iff.mp run
    obtain ⟨t', same', -⟩ := exactly_bind_eq_some_iff.mp run'
    rw [same, same']
    exact near_of_start (by decide) (by decide)

/-! ### Loops in brackets -/

omit h in
/-- A loop ends with a condition or right away. -/
theorem head_of_loopEnd {c : Char} {k : Option Expr → Node} {t r : Chars} {node : Node}
    (run : (do
      let condition ← Scan.optional (loopCondition nested)
      let _ ← exactly [c]
      pure (k condition)) t = some (node, r)) :
    ((∃ u, t = 'i' :: 'f' :: u) ∨ ∃ u, t = c :: u) ∧ r.length < t.length := by
  obtain ⟨o, u, first, more⟩ := bind_eq_some_iff.mp run
  obtain ⟨v, same, last⟩ := exactly_bind_eq_some_iff.mp more
  cases last
  rcases optional_eq_some_iff.mp first with ⟨e, -, taken⟩ | ⟨-, -, rfl⟩
  · obtain ⟨x, rfl, inner⟩ := exactly_bind_eq_some_iff.mp taken
    obtain ⟨y, split⟩ := shortens_spaced _ _ _ inner
    refine ⟨.inl ⟨x, rfl⟩, ?_⟩
    rw [split, same]
    simp only [List.length_append, List.length_cons, List.length_nil]
    omega
  · rw [same]
    exact ⟨.inr ⟨r, rfl⟩, by simp⟩

omit h in
/-- The rests in front of the end of a loop close what is in front of it. -/
theorem closes_of_loopEnd {c : Char} (close : c = ']' ∨ c = '}') {k : Option Expr → Node}
    {node : Node} {w rest rest' : Chars} (run : (do
      let condition ← Scan.optional (loopCondition nested)
      let _ ← exactly [c]
      pure (k condition)) (w ++ rest) = some (node, rest))
    (run' : (do
      let condition ← Scan.optional (loopCondition nested)
      let _ ← exactly [c]
      pure (k condition)) (w ++ rest') = some (node, rest')) :
    Closes (w ++ rest) (w ++ rest') := by
  have mark : isMark c = true := by rcases close with rfl | rfl <;> decide
  have other : c ≠ 'i' := by rcases close with rfl | rfl <;> decide
  obtain ⟨kinds, shorter⟩ := head_of_loopEnd run
  obtain ⟨kinds', -⟩ := head_of_loopEnd run'
  cases w with
  | nil => exact absurd shorter (Nat.lt_irrefl _)
  | cons d w =>
    rcases kinds with ⟨u, same⟩ | ⟨u, same⟩
    · obtain ⟨rfl, -⟩ := List.cons.inj same
      rcases kinds' with ⟨u', same'⟩ | ⟨u', same'⟩
      · rw [same, same']
        exact closes_of_marks (by decide)
      · exact absurd (List.cons.inj same').1.symm other
    · obtain ⟨rfl, -⟩ := List.cons.inj same
      exact closes_of_mark mark mark

/-- The end of a loop is read again whatever is behind it. -/
theorem replays_loopEnd {credit : Nat} {claim : Prop} {c : Char} (close : c = ']' ∨ c = '}')
    {k : Option Expr → Node}
    (light : ∀ o, weight (k o).chars ≤ credit + weight (conditionChars o) + weight [c])
    (implies : ∀ o, (k o).Whole → claim ∧ WholeCondition o) :
    Replays n credit claim Node.gauge (fun _ _ => True) (do
      let condition ← Scan.optional (loopCondition nested)
      let _ ← exactly [c]
      pure (k condition)) := by
  have mark : isMark c = true := by rcases close with rfl | rfl <;> decide
  have other : c ≠ 'i' := by rcases close with rfl | rfl <;> decide
  refine Replays.bind (replays_loopCondition h).optional
    (fun o => Replays.lead_bind (Replays.pure ?_ ?_)) fun o node w rest rest' run run' _ => ?_
  · have := light o
    cases o <;> simpa [Node.gauge, Gauge.option, conditionChars, Nat.add_assoc] using this
  · intro _ whole
    obtain ⟨holds, condition⟩ := implies o whole
    refine ⟨holds, fun e same => ?_⟩
    obtain rfl := same
    exact condition
  · obtain ⟨t, same, -⟩ := exactly_bind_eq_some_iff.mp run
    obtain ⟨t', same', -⟩ := exactly_bind_eq_some_iff.mp run'
    rw [same, same']
    exact ⟨closes_of_mark mark mark, fun _ => exactly_bind_eq_none (by simpa using other)⟩

/-- A loop in brackets is read again whatever is behind it. -/
theorem replays_listForTail {credit : Nat} {claim : Prop} (paid : weight ['['] ≤ credit)
    (holds : claim) : Replays n credit claim Node.gauge (fun _ _ => True) (listForTail nested) := by
  have marks : heft ':' = 1 ∧ heft '[' = 1 ∧ heft ']' = 1 := by decide
  refine Replays.bind (replays_loopHead h) (fun head => Replays.lead_bind ?_)
    fun head node w rest rest' run run' _ => ?_
  · obtain ⟨lead, words, source⟩ := head
    refine Replays.bind (replays_spaced h) (fun value => ?_)
      fun value node w rest rest' run run' _ => closes_of_loopEnd (.inl rfl) run run'
    refine replays_loopEnd h (.inl rfl) (fun o => ?_) fun o whole =>
      ⟨⟨⟨holds, whole.1⟩, whole.2.1⟩, whole.2.2⟩
    simp only [weight_cons, weight_nil, marks] at paid
    simp only [Node.chars, headGauge, Expr.gauge, weight_cons, weight_append, weight_nil, marks]
    omega
  · obtain ⟨t, same, -⟩ := exactly_bind_eq_some_iff.mp run
    obtain ⟨t', same', -⟩ := exactly_bind_eq_some_iff.mp run'
    rw [same, same']
    exact closes_of_mark (by decide) (by decide)

omit h in
/-- The dots of a loop that groups, and the blank space behind them. -/
theorem replays_dots (m : Nat) :
    Replays m 0 True ⟨fun b => 3 + weight b, fun _ => True⟩ (Near true) (do
      let _ ← exactly ['.', '.', '.']
      Blank.across) := by
  have dots : weight ['.', '.', '.'] = 3 := by decide
  refine Replays.lead_bind
    ((Blank.replays_gap m true).gauge (fun b => ?_) fun b _ _ => ⟨trivial, trivial⟩)
  simp [Gauge.text, dots]

omit h in
/-- The rests in front of the dots, the condition or the bracket of a loop close what is in front of
it. -/
theorem closes_of_dots {c : Char} (close : c = ']' ∨ c = '}')
    {k : Option Chars → Option Expr → Node} {node : Node} {w rest rest' : Chars} (run : (do
      let group ← Scan.optional (do
        let _ ← exactly ['.', '.', '.']
        Blank.across)
      let condition ← Scan.optional (loopCondition nested)
      let _ ← exactly [c]
      pure (k group condition)) (w ++ rest) = some (node, rest))
    (run' : (do
      let group ← Scan.optional (do
        let _ ← exactly ['.', '.', '.']
        Blank.across)
      let condition ← Scan.optional (loopCondition nested)
      let _ ← exactly [c]
      pure (k group condition)) (w ++ rest') = some (node, rest')) :
    Closes (w ++ rest) (w ++ rest') := by
  obtain ⟨o, t, first, more⟩ := bind_eq_some_iff.mp run
  obtain ⟨o', t', first', more'⟩ := bind_eq_some_iff.mp run'
  have dots : ∀ {cs r a}, (do
      let _ ← exactly ['.', '.', '.']
      Blank.across : Scan Chars) cs = some (a, r) → ∃ u, cs = '.' :: '.' :: '.' :: u := by
    intro cs r a taken
    obtain ⟨u, same, -⟩ := exactly_bind_eq_some_iff.mp taken
    exact ⟨u, same⟩
  have other : ∀ {o : Option Chars} {t r : Chars}, (do
      let condition ← Scan.optional (loopCondition nested)
      let _ ← exactly [c]
      pure (k o condition)) t = some (node, r) → t.head? ≠ some '.' := by
    intro o t r run
    rcases (head_of_loopEnd run).1 with ⟨u, rfl⟩ | ⟨u, rfl⟩
    · simp
    · rcases close with rfl | rfl <;> simp
  have shorter : t.length ≤ (w ++ rest).length := by
    obtain ⟨v, split⟩ := (replays_dots 0).optional.shortens _ _ _ first
    rw [split, List.length_append]
    omega
  -- What is read ends with the closing mark, so there is a first character to compare.
  have nonempty : w ≠ [] := by
    rintro rfl
    have := (head_of_loopEnd more).2
    simp only [List.nil_append] at shorter
    omega
  obtain ⟨d, w, rfl⟩ := List.exists_cons_of_ne_nil nonempty
  rcases optional_eq_some_iff.mp first with ⟨a, rfl, taken⟩ | ⟨rfl, -, rfl⟩
  · obtain ⟨u, same⟩ := dots taken
    obtain ⟨rfl, -⟩ := List.cons.inj same
    rcases optional_eq_some_iff.mp first' with ⟨a', rfl, taken'⟩ | ⟨rfl, -, rfl⟩
    · obtain ⟨u', same'⟩ := dots taken'
      rw [same, same']
      exact closes_of_marks (by decide)
    · -- The first characters are the same, and without the dots this one would not be a dot.
      exact absurd rfl (other more')
  · rcases optional_eq_some_iff.mp first' with ⟨a', rfl, taken'⟩ | ⟨rfl, -, rfl⟩
    · obtain ⟨u', same'⟩ := dots taken'
      obtain ⟨rfl, -⟩ := List.cons.inj same'
      exact absurd rfl (other more)
    · exact closes_of_loopEnd close more more'

theorem replays_objectForTail {credit : Nat} {claim : Prop} (paid : weight ['{'] ≤ credit)
    (holds : claim) :
    Replays n credit claim Node.gauge (fun _ _ => True) (objectForTail nested) := by
  have marks : heft ':' = 1 ∧ heft '{' = 1 ∧ heft '}' = 1 ∧ heft '=' = 1 ∧ heft '>' = 1 := by decide
  refine Replays.bind (replays_loopHead h) (fun head => Replays.lead_bind ?_)
    fun head node w rest rest' run run' _ => ?_
  · obtain ⟨lead, words, source⟩ := head
    refine Replays.bind (replays_spaced h) (fun key => Replays.lead_bind ?_)
      fun key node w rest rest' run run' _ => ?_
    · refine Replays.bind (replays_spaced h) (fun value => ?_)
        fun value node w rest rest' run run' _ => closes_of_dots (.inr rfl) run run'
      refine Replays.bind (replays_dots n).optional (fun group => ?_)
        fun group node w rest rest' run run' _ => ?_
      · refine replays_loopEnd h (.inr rfl) (fun o => ?_) fun o whole => ?_
        · simp only [weight_cons, weight_nil, marks] at paid
          cases group <;> simp only [Node.chars, headGauge, Expr.gauge, Gauge.option, Option.map,
            Option.getD, weight_cons, weight_append, weight_nil, marks]
          · omega
          · have dot : heft '.' = 1 := by decide
            omega
        · exact ⟨⟨⟨⟨⟨holds, whole.1⟩, whole.2.1⟩, whole.2.2.1⟩, fun _ _ => trivial⟩, whole.2.2.2⟩
      · -- A loop ends with a word or a brace, so no dots are found in the other text either.
        obtain ⟨kinds, -⟩ := head_of_loopEnd run'
        refine ⟨(closes_of_loopEnd (.inr rfl) run run').near true, fun _ => exactly_bind_eq_none ?_⟩
        rcases kinds with ⟨u, same⟩ | ⟨u, same⟩ <;> simp [same]
    · obtain ⟨t, same, -⟩ := exactly_bind_eq_some_iff.mp run
      obtain ⟨t', same', -⟩ := exactly_bind_eq_some_iff.mp run'
      rw [same, same']
      exact closes_of_marks (by decide)
  · obtain ⟨t, same, -⟩ := exactly_bind_eq_some_iff.mp run
    obtain ⟨t', same', -⟩ := exactly_bind_eq_some_iff.mp run'
    rw [same, same']
    exact closes_of_mark (by decide) (by decide)

/-- An expression in parentheses is read again whatever is behind it. -/
theorem replays_group :
    Replays (n + 1) 0 True Node.gauge (fun _ _ => True) (group nested) := by
  have marks : heft '(' = 1 ∧ heft ')' = 1 := by decide
  refine Replays.exactly_bind
    (Replays.bind (replays_between h true true true)
      (fun e => Replays.lead_bind (Replays.pure ?_ ?_)) fun e node w rest rest' run run' _ => ?_)
  · simp only [Node.gauge, Node.chars, Expr.gauge, weight_cons, weight_append, weight_nil, marks]
    omega
  · exact fun _ whole => ⟨trivial, whole⟩
  · obtain ⟨t, same, -⟩ := exactly_bind_eq_some_iff.mp run
    obtain ⟨t', same', -⟩ := exactly_bind_eq_some_iff.mp run'
    rw [same, same']
    exact closes_of_mark (by decide) (by decide)

end Productions

end TerraformPins.Hcl.Grammar
