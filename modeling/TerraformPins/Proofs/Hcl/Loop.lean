import TerraformPins.Proofs.Hcl.Bracket

/-!
# Telling loops from lists and objects

Behind an opening bracket the reader looks for the word that begins a loop. Since the closing
bracket follows, it sees nothing but what is inside the brackets.

## Main results

* `Grammar.beginsLoop_eq` — what is in brackets decides whether it is a loop
* `Grammar.replays_list` — lists and loops in brackets
-/

namespace TerraformPins.Hcl.Grammar

open Scan

/-- Whether the word that begins a loop follows. -/
def beginsLoop (cs : Chars) : Bool :=
  ((do
    let _ ← Blank.across
    let _ ← exactly ['f', 'o', 'r']
    one fun c => c == ' ' || c == '\t' || c == '#' || c == '/' : Scan Char) cs).isSome

theorem seesLoop_eq : seesLoop = fun cs => some (beginsLoop cs, cs) := rfl

/-- The word is looked for up to a character that is not in it. -/
theorem beginsLoop_append {b x rest : Chars} {c d : Char} (other : c ∉ ['f', 'o', 'r'])
    (run : Blank.gap true (b ++ d :: x ++ rest) = some (b, d :: x ++ rest)) (rest' : Chars)
    (firm : Blank.soft true d = false) (inside : c ∈ d :: x) :
    beginsLoop (b ++ d :: x ++ rest) = beginsLoop (b ++ d :: x ++ rest') := by
  have near : Near true (d :: x ++ rest) (d :: x ++ rest') :=
    .inr ⟨fun e first => by obtain rfl := Option.some.inj first; exact firm, nofun,
      fun e first => by obtain rfl := Option.some.inj first; exact firm⟩
  have run' := Blank.gap_again run near
  rw [← List.append_assoc] at run'
  have run : Blank.across (b ++ d :: x ++ rest) = some (b, d :: x ++ rest) := run
  have run' : Blank.across (b ++ d :: x ++ rest') = some (b, d :: x ++ rest') := run'
  rw [beginsLoop, beginsLoop, bind_of_eq_some run, bind_of_eq_some run']
  -- such a character is not among the first three ones of the word
  have short : ∀ y z : Chars, y.length ≤ 3 → c ∈ y →
      (exactly ['f', 'o', 'r'] >>= fun _ => one fun c =>
        c == ' ' || c == '\t' || c == '#' || c == '/') (y ++ z) = none := by
    intro y z short member
    refine bind_of_eq_none (Option.eq_none_iff_forall_ne_some.mpr fun x taken => ?_)
    obtain ⟨-, split⟩ := exactly_eq_some_iff.mp (show exactly _ _ = some (x.1, x.2) from taken)
    have front : y <+: ['f', 'o', 'r'] := by
      have left : y <+: ['f', 'o', 'r'] ++ x.2 := split ▸ List.prefix_append y z
      exact List.prefix_of_prefix_length_le left (List.prefix_append _ _) short
    exact other (front.subset member)
  by_cases long : 4 ≤ (d :: x).length
  · obtain ⟨e, f, g, y, rfl⟩ : ∃ e f g y, x = e :: f :: g :: y := by
      match x, long with
      | e :: f :: g :: y, _ => exact ⟨e, f, g, y, rfl⟩
    simp only [List.cons_append, bind_apply, exactly, stripFront?]
    cases 'f' == d <;> cases 'o' == e <;> cases 'r' == f <;>
      simp only [Bool.false_eq_true, if_false, if_true, Option.map_none, Option.bind_none,
        Option.map_some, Option.bind_some, one_cons]
    split <;> rfl
  · rw [short _ rest (by omega) inside, short _ rest' (by omega) inside]

/-- A reader that takes a character behind blank space, and that one cannot begin blank space. -/
def Opens {α : Type} (p : Scan α) : Prop :=
  ∀ cs a rest, p cs = some (a, rest) → ∃ d u, Blank.skip true cs = d :: u ∧
    Blank.soft true d = false ∧ rest.length ≤ u.length

/-- A reader that takes a closing bracket last. -/
def Ends {α : Type} (c : Char) (p : Scan α) : Prop :=
  ∀ cs a rest, p cs = some (a, rest) → ∃ v, cs = v ++ c :: rest

section Rules

variable {α β : Type} {p : Scan α} {f : α → Scan β} {c : Char}

/-- What is behind the first character may take more. -/
theorem Opens.bind (h : Opens p) (tail : ∀ a, (f a).Shortens) : Opens (p >>= f) := by
  intro cs b rest run
  obtain ⟨a, t, first, more⟩ := bind_eq_some_iff.mp run
  obtain ⟨d, u, same, firm, le⟩ := h cs a t first
  obtain ⟨v, rfl⟩ := tail a t b rest more
  rw [List.length_append] at le
  exact ⟨d, u, same, firm, by omega⟩

/-- A sequence ends like its last reader. -/
theorem Ends.bind (h : p.Shortens) (tail : ∀ a, Ends c (f a)) : Ends c (p >>= f) := by
  intro cs b rest run
  obtain ⟨a, t, first, more⟩ := bind_eq_some_iff.mp run
  obtain ⟨w, rfl⟩ := h cs a t first
  obtain ⟨v, rfl⟩ := tail a t b rest more
  exact ⟨w ++ v, by simp⟩

theorem Ends.exactly {k : Chars → β} : Ends c (exactly [c] >>= fun x => pure (k x)) := by
  intro cs b rest run
  obtain ⟨t, rfl, last⟩ := exactly_bind_eq_some_iff.mp run
  cases last
  exact ⟨[], rfl⟩

theorem Ends.shortens (h : Ends c p) : p.Shortens := by
  intro cs a rest run
  obtain ⟨v, rfl⟩ := h cs a rest run
  exact ⟨v ++ [c], by simp⟩

theorem Ends.advances (h : Ends c p) : p.Advances := by
  intro cs a rest run
  obtain ⟨v, rfl⟩ := h cs a rest run
  simp only [List.length_append, List.length_cons]
  omega

/-- What begins with a character that is not blank opens behind blank space. -/
theorem opens_across {g : Chars → Scan β} (leads : ∀ a, Leads (fun d => !Blank.soft true d) (g a))
    (advances : ∀ a, (g a).Advances) : Opens (Blank.across >>= g) := by
  intro cs b rest run
  obtain ⟨a, t, gap, more⟩ := bind_eq_some_iff.mp run
  obtain ⟨d, u, firm, rfl⟩ := leads a t _ more
  have shorter := advances a _ _ _ more
  refine ⟨d, u, Blank.skip_eq_of_across gap, by simpa using firm, ?_⟩
  rw [List.length_cons] at shorter
  omega

/-- What is in brackets decides whether it is a loop. -/
theorem beginsLoop_eq (close : c = ']' ∨ c = '}') (opens : Opens p) (ends : Ends c p)
    {w rest : Chars} {a : α} (run : p (w ++ rest) = some (a, rest)) (rest' : Chars) :
    beginsLoop (w ++ rest) = beginsLoop (w ++ rest') := by
  have other : c ∉ ['f', 'o', 'r'] := by rcases close with rfl | rfl <;> decide
  obtain ⟨d, u, same, firm, le⟩ := opens _ a rest run
  obtain ⟨v, split⟩ := ends _ a rest run
  obtain ⟨b, gap⟩ := Blank.exists_gap true (w ++ rest)
  rw [same] at gap
  have front := Blank.gap_split gap
  obtain rfl : w = v ++ [c] := by
    have same : w ++ rest = v ++ [c] ++ rest := by simp [split]
    exact List.append_cancel_right same
  have shape : b ++ d :: u = v ++ [c] ++ rest := front.symm
  -- the bracket is not in front of the character behind the blank space
  have inside : b <+: v := by
    have left : b <+: v ++ ([c] ++ rest) := by
      rw [← List.append_assoc, ← shape]
      exact List.prefix_append b _
    refine List.prefix_of_prefix_length_le left (List.prefix_append v _) ?_
    have lengths := congrArg List.length shape
    simp only [List.length_append, List.length_cons, List.length_nil] at lengths
    omega
  obtain ⟨y, rfl⟩ := inside
  rw [List.append_assoc, List.append_assoc] at shape
  have tail := List.append_cancel_left shape
  cases y with
  | nil =>
    obtain ⟨rfl, rfl⟩ := List.cons.inj tail
    have same := beginsLoop_append (x := []) other (by simpa using gap) rest' firm (by simp)
    simpa using same
  | cons e y =>
    obtain ⟨rfl, rfl⟩ := List.cons.inj tail
    have same := beginsLoop_append (x := y ++ [c]) other (by simpa using gap) rest' firm (by simp)
    simpa using same

end Rules

/-! ### What is in brackets -/

/-- A nested expression behind blank space opens what it stands in. -/
theorem opens_of_nested {newlines : Bool} {cs b t r rest : Chars} {node : Node}
    (gap : Blank.across cs = some (b, t)) (read : nested newlines t = some (node, r))
    (shorter : rest.length < r.length) :
    ∃ d u, Blank.skip true cs = d :: u ∧ Blank.soft true d = false ∧ rest.length ≤ u.length := by
  obtain ⟨d, u, start, rfl⟩ := leads_nested newlines _ _ read
  obtain ⟨w, split⟩ := shortens_nested newlines _ _ _ read
  refine ⟨d, u, Blank.skip_eq_of_across gap, hard_of_isStart (t := u) start d rfl, ?_⟩
  have lengths := congrArg List.length split
  simp only [List.length_cons, List.length_append] at lengths
  omega

/-- Blank space and a closing bracket, with anything in front. -/
theorem ends_closing {c : Char} {k : Chars → Node} : Ends c (do
    let closing ← Blank.across
    let _ ← exactly [c]
    pure (k closing)) :=
  Ends.bind shortens_across fun _ => Ends.exactly

/-- A loop ends with its bracket, with a condition in front or without. -/
theorem ends_loopEnd {c : Char} {k : Option Expr → Node} : Ends c (do
    let condition ← Scan.optional (loopCondition nested)
    let _ ← exactly [c]
    pure (k condition)) :=
  Ends.bind (shortens_exactly _ |>.bind fun _ => shortens_spaced).optional fun _ => Ends.exactly

/-- The rest of a list behind its items. -/
def listRest (items : List Expr) : Scan Node := do
  let comma ← if items.isEmpty then pure none else Scan.optional (exactly [','])
  let closing ← Blank.across
  let _ ← exactly [']']
  pure (.list items comma.isSome closing)

theorem listRest_nil : listRest [] = (do
    let closing ← Blank.across
    let _ ← exactly [']']
    pure (.list [] false closing)) := rfl

/-- A list ends with its bracket, whatever its items are. -/
theorem ends_listRest (items : List Expr) : Ends ']' (listRest items) := by
  rw [listRest]
  split
  · exact Ends.bind (shortens_pure _) fun _ => ends_closing
  · exact Ends.bind (shortens_exactly _).optional fun _ => ends_closing

theorem shortens_items : (items nested).Shortens :=
  (tracks_items (n := 0) fun newlines => .refl (shortens_nested newlines)).shortens

theorem ends_listTail : Ends ']' (listTail nested) :=
  Ends.bind shortens_items ends_listRest

theorem ends_callTail (function : Chars) : Ends ')' (callTail nested function) := by
  refine Ends.bind shortens_across fun _ => Ends.bind (shortens_exactly _) fun _ =>
    Ends.bind shortens_items fun items => ?_
  dsimp only
  split
  · exact Ends.bind (shortens_pure _) fun _ => ends_closing
  · exact Ends.bind shortens_callEnd fun _ => ends_closing

theorem shortens_many_nextItem : (Scan.many nextItem).Shortens :=
  ((shortens_exactly _).bind fun _ => shortens_spaced).many

/-- A list opens with its first item or with its bracket. -/
theorem opens_listTail : Opens (listTail nested) := by
  intro cs node rest run
  obtain ⟨items, t, first, more⟩ := bind_eq_some_iff.mp run
  rw [items_eq] at first
  rcases orElse_eq_some_iff.mp first with found | ⟨-, nothing⟩
  · obtain ⟨e, r, item, repeated⟩ := bind_eq_some_iff.mp found
    obtain ⟨b, s, gap, inner⟩ := bind_eq_some_iff.mp item
    obtain ⟨e', v, read, behind⟩ := bind_eq_some_iff.mp inner
    refine opens_of_nested gap read ?_
    -- the mark that closes the list is behind the first item
    have tail : t.length ≤ v.length := by
      obtain ⟨a, s', gap', last⟩ := bind_eq_some_iff.mp behind
      cases last
      obtain ⟨w, rfl⟩ := shortens_across _ _ _ gap'
      obtain ⟨w', split⟩ := (shortens_many_nextItem.bind fun _ => shortens_pure _) _ _ _ repeated
      rw [split]
      simp only [List.length_append]
      omega
    have advances := (ends_listRest items).advances _ _ _ more
    omega
  · cases nothing
    have more : listRest [] cs = some (node, rest) := more
    rw [listRest_nil] at more
    obtain ⟨b, gap, -⟩ := closing_eq_some_iff.mp more
    exact ⟨']', rest, Blank.skip_eq_of_across gap, by decide, Nat.le_refl _⟩

/-- The head of a loop begins with a word behind blank space. -/
theorem opens_loopHead : Opens (loopHead nested) := by
  refine opens_across (fun _ => ?_) fun _ => ?_
  · refine ((leads_exactly 'f' ['o', 'r']).mono fun c same => ?_).bind
    rw [beq_iff_eq.mp same]
    decide
  · have second : (Scan.optional (do
        let _ ← exactly [',']
        spacedWord)).Shortens :=
      ((shortens_exactly _).bind fun _ => shortens_spacedWord).optional
    exact (advances_exactly 'f' ['o', 'r']).bind fun _ => shortens_spacedWord.bind fun _ =>
      second.bind fun _ => (shortens_exactly _).bind fun _ => shortens_spaced.bind fun _ =>
        shortens_pure _

theorem shortens_loopHead : (loopHead nested).Shortens :=
  (tracks_loopHead (n := 0) fun newlines => .refl (shortens_nested newlines)).shortens

theorem ends_listForTail : Ends ']' (listForTail nested) :=
  Ends.bind shortens_loopHead fun _ => Ends.bind (shortens_exactly _) fun _ =>
    Ends.bind shortens_spaced fun _ => ends_loopEnd

/-- A loop opens with its word. -/
theorem opens_listForTail : Opens (listForTail nested) :=
  opens_loopHead.bind fun _ => (shortens_exactly _).bind fun _ => shortens_spaced.bind fun _ =>
    ends_loopEnd.shortens

theorem ends_objectForTail : Ends '}' (objectForTail nested) :=
  Ends.bind shortens_loopHead fun _ => Ends.bind (shortens_exactly _) fun _ =>
    Ends.bind shortens_spaced fun _ => Ends.bind (shortens_exactly _) fun _ =>
      Ends.bind shortens_spaced fun _ =>
        Ends.bind ((shortens_exactly _).bind fun _ => shortens_across).optional
          fun _ => ends_loopEnd

theorem opens_objectForTail : Opens (objectForTail nested) :=
  opens_loopHead.bind fun _ => (shortens_exactly _).bind fun _ => shortens_spaced.bind fun _ =>
    (shortens_exactly _).bind fun _ => shortens_spaced.bind fun _ =>
      ((shortens_exactly _).bind fun _ => shortens_across).optional.bind fun _ =>
        ends_loopEnd.shortens

/-- A list or a loop in brackets is read again whatever is behind it. -/
theorem replays_list {n : Nat}
    (h : ∀ newlines, Replays n 0 True Node.gauge Follow (nested newlines)) :
    Replays (n + 1) 0 True Node.gauge (fun _ _ => True) (list nested) := by
  refine Replays.exactly_bind ?_
  rw [seesLoop_eq]
  refine Replays.peek_bind (fun loops => ?_) fun loops node w rest rest' run => ?_
  · cases loops with
    | true => exact replays_listForTail h (by simp) trivial
    | false => exact replays_listTail h (by simp) trivial
  · cases loops with
    | true => exact beginsLoop_eq (.inl rfl) opens_listForTail ends_listForTail run rest'
    | false => exact beginsLoop_eq (.inl rfl) opens_listTail ends_listTail run rest'

end TerraformPins.Hcl.Grammar
