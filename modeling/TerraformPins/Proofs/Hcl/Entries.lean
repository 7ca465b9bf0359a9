import TerraformPins.Proofs.Hcl.Braces
import TerraformPins.Proofs.Hcl.Indent

/-!
# Objects with a version written

The text of an object stays the text of an object when a version is written to it. The entries in
front of the place are read again, since behind each of them the same key follows as before. A
version that is there is exchanged for a quoted string, which is read in front of everything that
ended the old value. A version that is added stands behind an entry that has been given a comma or
had one of its own, or on a line of its own.

## Main definitions

* `Entry.mark` — what the key of an entry is compared by

## Main results

* `Grammar.chain_again` — the entries in front of a changed one
* `Node.reads_setVersionEntry` — an object with a version written
-/

namespace TerraformPins.Hcl

open Scan Grammar Reader

/-! ### Keys that differ -/

/-- What the key of an entry is compared by. -/
def Entry.mark (e : Entry) : Chars :=
  e.key.erase.chars []

theorem Entry.sameKey_eq (a b : Entry) : a.sameKey b = (a.mark == b.mark) := rfl

theorem Entry.put_eq_append {entry : Entry} {kept : List Entry}
    (new : entry.mark ∉ kept.map Entry.mark) : entry.put kept = kept ++ [entry] := by
  induction kept with
  | nil => rfl
  | cons e rest ih =>
    rw [List.map_cons, List.mem_cons, not_or] at new
    rw [put, sameKey_eq, if_neg (by simpa using Ne.symm new.1), ih new.2]
    rfl

theorem Entry.length_put {entry : Entry} {kept : List Entry}
    (old : entry.mark ∈ kept.map Entry.mark) : (entry.put kept).length = kept.length := by
  induction kept with
  | nil => simp at old
  | cons e rest ih =>
    rw [put, sameKey_eq]
    split
    case isTrue => rfl
    case isFalse differs =>
      rw [List.map_cons, List.mem_cons] at old
      rcases old with same | inside
      · exact absurd (beq_iff_eq.mpr same.symm) differs
      · rw [List.length_cons, List.length_cons, ih inside]

theorem Entry.length_foldl_put (entries kept : List Entry) :
    (entries.foldl (fun kept e => e.put kept) kept).length ≤ kept.length + entries.length := by
  induction entries generalizing kept with
  | nil => simp
  | cons e rest ih =>
    have rest' := ih (e.put kept)
    rw [List.foldl_cons, List.length_cons]
    by_cases old : e.mark ∈ kept.map Entry.mark
    · have stays := length_put old
      omega
    · rw [put_eq_append old, List.length_append, List.length_singleton] at rest'
      rw [put_eq_append old]
      omega

theorem Entry.foldl_put_of_nodup {entries kept : List Entry}
    (nodup : ((kept ++ entries).map Entry.mark).Nodup) :
    entries.foldl (fun kept e => e.put kept) kept = kept ++ entries := by
  induction entries generalizing kept with
  | nil => simp
  | cons e rest ih =>
    have new : e.mark ∉ kept.map Entry.mark := by
      rw [List.map_append, List.nodup_append] at nodup
      exact fun old => nodup.2.2 _ old _ (by simp) rfl
    rw [List.foldl_cons, put_eq_append new, ih (by simpa using nodup)]
    simp

theorem Entry.nodup_of_length {entries kept : List Entry} (nodup : (kept.map Entry.mark).Nodup)
    (long : kept.length + entries.length ≤ (entries.foldl (fun kept e => e.put kept) kept).length) :
    ((kept ++ entries).map Entry.mark).Nodup := by
  induction entries generalizing kept with
  | nil => simpa using nodup
  | cons e rest ih =>
    rw [List.foldl_cons, List.length_cons] at long
    have short := length_foldl_put rest (e.put kept)
    by_cases old : e.mark ∈ kept.map Entry.mark
    · rw [length_put old] at short
      omega
    · rw [put_eq_append old] at long
      have nodup' : ((kept ++ [e]).map Entry.mark).Nodup := by
        rw [List.map_append, List.nodup_append]
        refine ⟨nodup, by simp, fun a here b there same => ?_⟩
        obtain rfl : b = e.mark := by simpa using there
        exact old (same ▸ here)
      have all := ih nodup' (by
        rw [List.length_append, List.length_singleton]
        omega)
      simpa using all

/-- All entries of an object are kept exactly if their keys differ. -/
theorem Entry.distinct_eq_self_iff {entries : List Entry} :
    Entry.distinct entries = entries ↔ (entries.map Entry.mark).Nodup := by
  constructor
  · intro same
    refine @nodup_of_length entries [] .nil ?_
    rw [show entries.foldl (fun kept e => e.put kept) [] = entries from same]
    simp
  · exact @foldl_put_of_nodup entries []

/-- Blank space in front of an expression is erased to one blank. -/
theorem Expr.chars_erase (e : Expr) : e.erase.chars [] = ' ' :: (e.node.erase.chars ++ [' ']) := by
  obtain ⟨layout, node⟩ := e
  simp [Expr.erase, Expr.chars, Layout.around, Layout.plain, Layout.written, Expr.node]

/-- A key that is compared as the word `version` is this word. -/
theorem Entry.keyText?_of_mark {e : Entry} (same : e.mark = ' ' :: (Document.versionKey ++ [' '])) :
    e.keyText? = some Document.versionKey := by
  obtain ⟨⟨layout, node⟩, sign, value, stop⟩ := e
  have text : node.erase.chars = Document.versionKey := by
    simpa [mark, Entry.key, Expr.chars_erase, Expr.node] using same
  cases node with
  | name word => exact congrArg some text
  | number written =>
    have slash : '/' ∈ Document.versionKey := by
      rw [← text]
      simp [Node.erase, Node.chars, Number.canonical]
    exact absurd slash (by decide)
  | call function gap arguments ending closing =>
    have bracket : '(' ∈ Document.versionKey := by
      rw [← text]
      simp [Node.erase, Node.chars]
    exact absurd bracket (by decide)
  | unary op =>
    cases op <;> simp [Node.erase, Node.chars, UnaryOp.chars, Document.versionKey] at text
  | _ => simp [Node.erase, Node.chars, Expr.chars_erase, Document.versionKey] at text

/-! ### The entries in front of a changed one -/

theorem Entry.Sound.entryKeyChars_eq {e : Entry} (h : e.Sound) : ∃ c u, isStart c = true ∧
    entryKeyChars e.key = e.key.layout.before.getD [] ++ c :: u := by
  obtain ⟨⟨layout, node⟩, sign, value, stop⟩ := e
  obtain ⟨c, u, same, start⟩ := h.head
  exact ⟨c, u ++ layout.after.getD [' '], start, by
    simp [entryKeyChars, Entry.key, Expr.layout, show node.chars = c :: u from same]⟩

theorem Entry.Whole.key {e : Entry} (h : e.Whole) : e.key.Whole := by
  cases e
  exact h.1

namespace Grammar

/-- Two rests that begin with the same key. -/
theorem entryEnd_of_key {e : Entry} (sound : e.Sound) (written : e.asRead = e) (whole : e.key.Whole)
    {s s' : Chars} (signed : Signed s) (signed' : Signed s') :
    EntryEnd (entryKeyChars e.key ++ s) (entryKeyChars e.key ++ s') := by
  obtain ⟨c, u, start, shape⟩ := sound.entryKeyChars_eq
  refine ⟨fun first => ?_, ?_⟩
  · rw [shape] at first ⊢
    cases b : e.key.layout.before.getD [] with
    | nil =>
      rw [b] at first
      exact first
    | cons d b' =>
      rw [b] at first
      exact first
  · have key := sound.key
    rw [written] at key
    exact (replays_upTo (entryKeyChars e.key).length).2 _ _ _ _ (key s signed) (key s' signed')
      (Nat.le_refl _) (Nat.le_of_eq (weight_entryKeyChars _)) whole (signed.closes signed')

/-- The entries in front of a changed one are read again if the changed one begins with the same
key. -/
theorem chain_again {front back more : List Entry} {e : Entry} {t s r : Chars}
    (chain : Chain (entry nested) (entriesChars (front ++ e :: back) ++ t) (front ++ e :: back) t)
    (whole : ∀ x ∈ front ++ e :: back, x.Whole) (signed : Signed s)
    (again : Chain (entry nested) (entryKeyChars e.key ++ s) more r) :
    Chain (entry nested) (entriesChars front ++ (entryKeyChars e.key ++ s)) (front ++ more) r := by
  induction front with
  | nil => exact again
  | cons f front ih =>
    rw [List.cons_append, List.forall_mem_cons] at whole
    obtain ⟨first, inside⟩ := whole
    obtain ⟨here, rest⟩ := at_head_of_chain chain first
    have later := ih rest inside
    -- Behind the first entry the same key follows as before, so it ends where it ended.
    have ends : EntryEnd (entriesChars (front ++ e :: back) ++ t)
        (entriesChars front ++ (entryKeyChars e.key ++ s)) := by
      cases front with
      | nil =>
        obtain ⟨next, -⟩ := at_head_of_chain rest (inside e List.mem_cons_self)
        have split : entriesChars ([] ++ e :: back) ++ t = entryKeyChars e.key ++
            (e.sign.chars ++
              (e.value.chars [' '] ++ (e.stop.chars ++ (entriesChars back ++ t)))) := by
          simp [entriesChars, Entry.chars_eq]
        rw [split]
        exact entryEnd_of_key next.sound next.asRead (inside e (by simp)).key
          (next.sound.signed _) signed
      | cons g front =>
        obtain ⟨next, -⟩ := at_head_of_chain rest (inside g List.mem_cons_self)
        have split : ∀ es u, entriesChars (g :: es) ++ u = entryKeyChars g.key ++
            (g.sign.chars ++
              (g.value.chars [' '] ++ (g.stop.chars ++ (entriesChars es ++ u)))) := by
          intro es u
          simp [entriesChars, Entry.chars_eq]
        rw [List.cons_append, split, split]
        exact entryEnd_of_key next.sound next.asRead (inside g (by simp)).key (next.sound.signed _)
          (next.sound.signed _)
    have taken : (entry nested).Takes f.chars f
        (· = entriesChars front ++ (entryKeyChars e.key ++ s)) :=
      .of_replays (fun n => replays_entry (replays_nested n)) here.read (Nat.le_refl _)
        first fun _ same => same ▸ ends
    have run := taken _ rfl
    rw [entriesChars, List.append_assoc]
    exact .cons run (advances_entry _ _ _ run) later

/-- Whether a loop begins does not depend on what is behind the sign of the first entry. -/
theorem beginsLoop_of_key {e : Entry} (sound : e.Sound) (s s' : Chars) :
    beginsLoop (entryKeyChars e.key ++ (e.sign.chars ++ s)) =
      beginsLoop (entryKeyChars e.key ++ (e.sign.chars ++ s')) := by
  obtain ⟨c, u, start, shape⟩ := sound.entryKeyChars_eq
  -- The sign is none of the letters of the word that begins a loop, so the word ends in front of
  -- it.
  obtain ⟨d, mark, other⟩ : ∃ d, e.sign.chars = [d] ∧ d ∉ ['f', 'o', 'r'] := by
    cases e.sign
    · exact ⟨'=', rfl, by decide⟩
    · exact ⟨':', rfl, by decide⟩
  have gap := sound.lead (c :: (u ++ [d]) ++ s) (hard_of_isStart start)
  have split : ∀ x, entryKeyChars e.key ++ (e.sign.chars ++ x) =
      e.key.layout.before.getD [] ++ c :: (u ++ [d]) ++ x := by
    intro x
    rw [shape, mark]
    simp
  rw [split, split]
  refine beginsLoop_append other ?_ s' (hard_of_isStart (t := u) start c rfl) (by simp)
  simpa using gap

/-- An object is read if its entries are. -/
theorem nested_object {entries found : List Entry} {closing closing' r : Chars}
    (noLoop : beginsLoop (entriesChars entries ++ (closing ++ '}' :: r)) = false)
    (chain : Chain (entry nested) (entriesChars entries ++ (closing ++ '}' :: r)) found
      (closing' ++ '}' :: r))
    (nodup : (found.map Entry.mark).Nodup)
    (gap : Blank.gap true (closing' ++ '}' :: r) = some (closing', '}' :: r)) (stops : Stops r) :
    nested false ((Node.object entries closing).chars ++ r) = some (.object found closing', r) := by
  have text : (Node.object entries closing).chars ++ r =
      '{' :: (entriesChars entries ++ (closing ++ '}' :: r)) := by
    simp [Node.chars]
  rw [text]
  exact nested_of_object (object_eq_some_iff.mpr ⟨noLoop, found, _, many_iff_chain.mpr chain,
    Entry.distinct_eq_self_iff.mpr nodup, gap⟩) (stops.calm.skip false)

/-- The text of an object from one of its entries on. -/
theorem entriesChars_split (front back : List Entry) (e : Entry) (t : Chars) :
    entriesChars (front ++ e :: back) ++ t = entriesChars front ++ (entryKeyChars e.key ++
      (e.sign.chars ++ (e.value.chars [' '] ++ (e.stop.chars ++ (entriesChars back ++ t))))) := by
  induction front with
  | nil => simp [entriesChars, Entry.chars_eq]
  | cons f front ih => simpa [entriesChars] using ih

/-- Whether a loop begins does not depend on what is behind the sign of the first entry. -/
theorem beginsLoop_of_entries {front back back' : List Entry} {e e' : Entry} {t : Chars}
    (sound : ∀ x ∈ front ++ [e], x.Sound) (key : e'.key = e.key) (sign : e'.sign = e.sign) :
    beginsLoop (entriesChars (front ++ e' :: back') ++ t) =
      beginsLoop (entriesChars (front ++ e :: back) ++ t) := by
  cases front with
  | nil =>
    rw [entriesChars_split, entriesChars_split, key, sign]
    exact beginsLoop_of_key (sound e (by simp)) _ _
  | cons f front =>
    have first := fun back => entriesChars_split [] back f t
    simp only [List.nil_append, List.cons_append] at first ⊢
    rw [first, first]
    exact beginsLoop_of_key (sound f (by simp)) _ _

/-- An object that is changed from one of its entries on, but not in the key of this entry. -/
theorem nested_changed {front back back' found : List Entry} {e e' : Entry} {closing r : Chars}
    (run : nested false ((Node.object (front ++ e :: back) closing).chars ++ r) =
      some (.object (front ++ e :: back) closing, r))
    (whole : WholeEntries (front ++ e :: back)) (stops : Stops r) (key : e'.key = e.key)
    (sign : e'.sign = e.sign) (sound : e'.Sound)
    (again : Chain (entry nested) (entriesChars (e' :: back') ++ (closing ++ '}' :: r)) found
      (closing ++ '}' :: r))
    (nodup : ((front ++ found).map Entry.mark).Nodup) :
    nested false ((Node.object (front ++ e' :: back') closing).chars ++ r) =
      some (.object (front ++ found) closing, r) := by
  obtain ⟨noLoop, chain, -, gap⟩ := entries_of_object run
  have each := wholeEntries_iff.mp whole
  refine nested_object ?_ ?_ nodup gap stops
  · -- The keys that the object begins with are the same, so it is still no loop.
    rw [beginsLoop_of_entries (fun x member => ?_) key sign, noLoop]
    obtain ⟨init, rest, split⟩ := List.append_of_mem member
    have inside : front ++ e :: back = init ++ x :: (rest ++ back) := by
      rw [← List.singleton_append, ← List.append_assoc, split]
      simp
    exact (at_of_chain chain each inside).1.sound
  · have text := entriesChars_split [] back' e' (closing ++ '}' :: r)
    simp only [List.nil_append, entriesChars] at text
    rw [entriesChars, text, key] at again
    rw [entriesChars_split, key]
    exact chain_again chain each (sound.signed _) again

end Grammar

/-! ### A version that is exchanged -/

/-- An entry with the text `value` as its value. -/
def Entry.retext (e : Entry) (value : Chars) : Entry :=
  .mk e.key e.sign (e.value.retext value) e.stop

theorem Entry.Sound.retext {e : Entry} (h : e.Sound) (value : Chars) : (e.retext value).Sound :=
  ⟨h.lead, h.head, h.key, h.before, Node.reads_text value, h.ends⟩

theorem Entry.asRead_retext {e : Entry} (h : e.asRead = e) (value : Chars) :
    (e.retext value).asRead = e.retext value := by
  obtain ⟨key, sign, ⟨⟨before, after⟩, node⟩, stop⟩ := e
  simp only [asRead, Entry.retext, Entry.mk.injEq, Expr.written, Expr.mk.injEq, Layout.written,
    Layout.mk.injEq, Entry.key, Entry.value, Expr.layout, Expr.node, Expr.retext, and_true] at h ⊢
  exact h

namespace Grammar

/-- A quoted string is read in front of everything that ended the old value. -/
theorem entry_retext {e : Entry} {rest : Chars} (h : e.At rest) (value : Chars) :
    entry nested ((e.retext value).chars ++ rest) = some (e.retext value, rest) := by
  have read := (h.sound.retext value).read_of_value h.brace
    (nested_text (calm_of_behindValue (behindValue_of_ends h.sound.ends h.brace)))
  rwa [Entry.asRead_retext h.asRead value] at read

/-- An object with the version exchanged. -/
theorem nested_retextAt {entries changed : List Entry} {closing r value : Chars}
    (run : nested false ((Node.object entries closing).chars ++ r) =
      some (.object entries closing, r))
    (whole : WholeEntries entries) (stops : Stops r)
    (written : retextAt? Document.versionKey value entries = some changed) :
    nested false ((Node.object changed closing).chars ++ r) = some
      (.object changed closing, r) := by
  cases found : valueAt? Document.versionKey entries with
  | none => simp [retextAt?_eq_none_iff.mpr found] at written
  | some v =>
    obtain ⟨front, key, sign, stop, back, rfl, rewritten⟩ := exists_entry found
    obtain rfl := Option.some.inj ((rewritten value).symm.trans written)
    obtain ⟨-, chain, distinct, -⟩ := entries_of_object run
    obtain ⟨here, rest⟩ := at_of_chain chain (wholeEntries_iff.mp whole) rfl
    have taken := entry_retext here value
    refine nested_changed run whole stops rfl rfl (here.sound.retext value) ?_ ?_
    · rw [entriesChars, List.append_assoc]
      exact .cons taken (advances_entry _ _ _ taken) rest
    · have nodup := Entry.distinct_eq_self_iff.mp distinct
      rw [List.map_append, List.map_cons] at nodup ⊢
      exact nodup

end Grammar

/-! ### A version that is added -/

theorem Entry.mark_settle (e : Entry) : e.settle.mark = e.mark := by
  unfold Entry.settle
  split <;> rfl

theorem Entry.asRead_settle {e : Entry} (h : e.asRead = e) : e.settle.asRead = e.settle := by
  obtain ⟨key, sign, ⟨⟨before, after⟩, node⟩, stop⟩ := e
  unfold Entry.settle
  split
  case isFalse => exact h
  case isTrue =>
    simp only [asRead, Entry.mk.injEq, Expr.written, Expr.mk.injEq, Layout.written, Layout.mk.injEq,
      Entry.key, Entry.value, Expr.layout, Expr.node, Expr.withLayout, and_true] at h ⊢
    exact ⟨h.1, rfl, ⟨h.2.2.1.1, rfl⟩, rfl⟩

theorem Entry.Sound.settle {e : Entry} (h : e.Sound) : e.settle.Sound := by
  unfold Entry.settle
  split
  case isFalse => exact h
  case isTrue => exact ⟨h.lead, h.head, h.key, h.before, h.value, Blank.fills_nil false⟩

/-- The key of an added version. -/
theorem takes_versionKey {before : Option Chars} (fills : Blank.Fills true (before.getD [])) :
    (between Blank.across (nested false) Blank.inline).Takes
      (entryKeyChars (.mk ⟨before, none⟩ (.name Document.versionKey)))
      (.mk (.written (before.getD []) [' ']) (.name Document.versionKey)) Signed := by
  intro t signed
  have word : (Node.name Document.versionKey).Reads (.name Document.versionKey) :=
    Node.reads_of_nested (t := []) rfl trivial
  have space : Blank.Fills false [' '] := Blank.fills_of_spaces (by simp [Blank.isSpace])
  obtain ⟨⟨s, u, rfl⟩, firm⟩ := signed
  have stops : Stops ([' '] ++ (s.chars ++ u)) := by
    refine stops_of_fills space firm.hard (fun c first => ?_) firm.calm
    cases s <;> obtain rfl := Option.some.inj first <;> decide
  have split : entryKeyChars (.mk ⟨before, none⟩ (.name Document.versionKey)) ++ (s.chars ++ u) =
      before.getD [] ++ (Document.versionKey ++ ([' '] ++ (s.chars ++ u))) := by
    simp [entryKeyChars, Node.chars]
  have lead :=
    fills (Document.versionKey ++ ([' '] ++ (s.chars ++ u))) (hard_of_isStart (by decide))
  have read := word _ stops
  have behind := space (s.chars ++ u) fun c first => by
    cases s <;> obtain rfl := Option.some.inj first <;> decide
  rw [split, between, bind_of_eq_some (show Blank.across _ = _ from lead),
    bind_of_eq_some (show nested false (Document.versionKey ++ _) = _ from read),
    bind_of_eq_some (show Blank.inline _ = _ from behind)]
  rfl

theorem Entry.Sound.added {last : Entry} (h : last.Sound) (value : Chars) :
    (addedEntry (some last) value).Sound := by
  have space : Blank.Fills false [' '] := Blank.fills_of_spaces (by simp [Blank.isSpace])
  obtain ⟨key, sign, v, stop⟩ := last
  have head : ∃ c u, (Node.name Document.versionKey).chars = c :: u ∧ isStart c = true :=
    ⟨'v', _, rfl, by decide⟩
  cases stop with
  | newline =>
    have lead := fills_indentation h.lead
    exact ⟨lead, head, takes_versionKey lead, space, Node.reads_text value, trails_nil⟩
  | comma =>
    exact ⟨h.lead, head, takes_versionKey h.lead, space, Node.reads_text value,
    Blank.fills_nil false⟩
  | brace => exact ⟨h.lead, head, takes_versionKey h.lead, space, Node.reads_text value, h.ends⟩

theorem stop_addedEntry (last : Entry) (value : Chars) :
    (addedEntry (some last) value).stop = last.stop := by
  obtain ⟨key, sign, v, stop⟩ := last
  cases stop <;> rfl

theorem mark_addedEntry (last? : Option Entry) (value : Chars) :
    (addedEntry last? value).asRead.mark = ' ' :: (Document.versionKey ++ [' ']) := by
  cases last? with
  | none => rfl
  | some last =>
    obtain ⟨key, sign, v, stop⟩ := last
    cases stop <;> rfl

theorem valueAt?_eq_none_iff {key : Chars} {entries : List Entry} :
    valueAt? key entries = none ↔ ∀ e ∈ entries, e.keyText? ≠ some key := by
  induction entries with
  | nil => simp
  | cons e rest ih =>
    rw [valueAt?_cons]
    split <;> simp_all

/-- The key of an added version is none of the old ones if there was no version. -/
theorem nodup_addedEntry {entries : List Entry} (nodup : (entries.map Entry.mark).Nodup)
    (missing : valueAt? Document.versionKey entries = none) (last? : Option Entry) (value : Chars) :
    (entries.map Entry.mark ++ [(addedEntry last? value).asRead.mark]).Nodup := by
  have new : (addedEntry last? value).asRead.mark ∉ entries.map Entry.mark := by
    rw [mark_addedEntry]
    intro old
    obtain ⟨e, member, same⟩ := List.mem_map.mp old
    exact valueAt?_eq_none_iff.mp missing e member (Entry.keyText?_of_mark same)
  refine List.nodup_append.mpr ⟨nodup, by simp, fun a here b there same => ?_⟩
  obtain rfl : b = _ := List.mem_singleton.mp there
  exact new (same ▸ here)

/-- The word of an added version begins a line or stands behind blank space. -/
theorem Entry.Sound.calm {e : Entry} (h : e.Sound) (word : e.key.node = .name Document.versionKey)
    (t : Chars) : Calm (Blank.skip true (e.chars ++ t)) := by
  have split : e.chars ++ t = e.key.layout.before.getD [] ++ (Document.versionKey ++
      (e.key.layout.after.getD [' '] ++
        (e.sign.chars ++ (e.value.chars [' '] ++ e.stop.chars)) ++ t)) := by
    obtain ⟨⟨layout, node⟩, sign, value, stop⟩ := e
    obtain rfl : node = .name Document.versionKey := word
    simp [Entry.chars_eq, entryKeyChars, Node.chars, Entry.key, Expr.layout]
  have gap := h.lead (Document.versionKey ++ (e.key.layout.after.getD [' '] ++
    (e.sign.chars ++ (e.value.chars [' '] ++ e.stop.chars)) ++ t)) (hard_of_isStart (by decide))
  rw [split, Blank.skip_eq_of_gap gap]
  exact calm_of_isWordStart (by decide) _

namespace Grammar

/-- An object with a version added behind its last entry. -/
theorem nested_added {front : List Entry} {last : Entry} {closing r : Chars}
    (run : nested false ((Node.object (front ++ [last]) closing).chars ++ r) =
      some (.object (front ++ [last]) closing, r))
    (whole : WholeEntries (front ++ [last])) (stops : Stops r)
    (missing : valueAt? Document.versionKey (front ++ [last]) = none) (value : Chars) :
    nested false
      ((Node.object (front ++ [last.settle, addedEntry (some last) value]) closing).chars ++ r) =
      some
        (.object (front ++ [last.settle, (addedEntry (some last) value).asRead]) closing, r) := by
  obtain ⟨-, chain, distinct, gap⟩ := entries_of_object run
  obtain ⟨here, none⟩ := at_of_chain chain (wholeEntries_iff.mp whole) rfl
  have closed : Calm (Blank.skip true (closing ++ '}' :: r)) := by
    rw [Blank.skip_eq_of_gap gap]
    exact (firm_of_mark (by decide) r).calm
  have second := (here.sound.added value).read (t := closing ++ '}' :: r) <| by
    rw [stop_addedEntry]
    cases same : last.stop with
    | newline => exact closed
    | comma => trivial
    | brace => exact here.brace same
  -- The last entry is followed by the added one now, and may have got a comma for that.
  have first := here.sound.settle.read
      (t := (addedEntry (some last) value).chars ++ (closing ++ '}' :: r)) <| by
    have stop : last.settle.stop = if last.stop = .brace then .comma else last.stop := by
      unfold Entry.settle
      split <;> rfl
    rw [stop]
    cases same : last.stop with
    | newline =>
      refine (here.sound.added value).calm ?_ _
      obtain ⟨key, sign, v, ending⟩ := last
      obtain rfl : ending = .newline := same
      rfl
    | comma => trivial
    | brace => trivial
  rw [Entry.asRead_settle here.asRead] at first
  have unchanged : last.settle.key = last.key ∧ last.settle.sign = last.sign := by
    unfold Entry.settle
    split <;> exact ⟨rfl, rfl⟩
  refine nested_changed run whole stops unchanged.1 unchanged.2 here.sound.settle ?_ ?_
  · have text : entriesChars [last.settle, addedEntry (some last) value] ++ (closing ++ '}' :: r) =
        last.settle.chars ++ ((addedEntry (some last) value).chars ++ (closing ++ '}' :: r)) := by
      simp [entriesChars]
    rw [text]
    exact .cons first (advances_entry _ _ _ first) (.cons second (advances_entry _ _ _ second) none)
  · have marks : (front ++ [last.settle, (addedEntry (some last) value).asRead]).map Entry.mark =
        (front ++ [last]).map Entry.mark ++ [(addedEntry (some last) value).asRead.mark] := by
      simp [Entry.mark_settle]
    rw [marks]
    exact nodup_addedEntry (Entry.distinct_eq_self_iff.mp distinct) missing (some last) value

/-- Behind a value the blank space up to the end of the line is taken. -/
theorem behindValue_lineEnd {cs b le u : Chars} (first : Blank.gap false cs = some (b, le ++ u))
    (kind : le = ['\n'] ∨ le = ['\r', '\n']) (t : Chars) :
    behindValue (b ++ (le ++ t)) = some ((b, .newline), t) := by
  have near : Near false (le ++ u) (le ++ t) := by
    rcases kind with rfl | rfl <;> exact near_of_hard (by decide) (by decide)
  exact behindValue_eq_some_iff.mpr ⟨b, le ++ t, [], Blank.gap_again first near,
    entryStop_of_lineEnd kind t, (List.append_nil b).symm⟩

/-- A comment up to the end of the line is taken with the blank space in front of it. -/
theorem behindValue_lineComment {cs b a le u : Chars}
    (first : Blank.gap false cs = some (b, a ++ (le ++ u)))
    (commented : Blank.lineComment (a ++ (le ++ u)) = some (a, le ++ u))
    (kind : le = ['\n'] ∨ le = ['\r', '\n']) (t : Chars) :
    behindValue (b ++ (a ++ (le ++ t))) = some ((b ++ a, .newline), t) := by
  obtain ⟨lead, c, rfl, -, mark, inside, -⟩ := Blank.lineComment_eq_some_iff.mp commented
  have again : Blank.lineComment (lead ++ c ++ (le ++ t)) = some (lead ++ c, le ++ t) := by
    refine Blank.lineComment_eq_some_iff.mpr ⟨lead, c, rfl, rfl, mark, inside, fun d next => ?_⟩
    rcases kind with rfl | rfl <;> obtain rfl := Option.some.inj next <;> decide
  have near : Near false (lead ++ c ++ (le ++ u)) (lead ++ c ++ (le ++ t)) := by
    rcases mark with rfl | rfl
    · exact near_of_hard (by decide) (by decide)
    · exact .inl ⟨'/', '/', _, _, rfl, rfl, by decide⟩
  exact behindValue_eq_some_iff.mpr ⟨b, _, lead ++ c, Blank.gap_again first near,
    entryStop_of_lineComment kind again, rfl⟩

/-- What is read behind the only entry of an object: the blank space up to the end of its line, or
all of it. -/
theorem behindValue_closing {closing : Chars} (fills : Blank.Fills true closing) :
    ∃ after stop closing', Blank.Fills true closing' ∧
      ∀ t, behindValue (closing ++ '}' :: t) = some ((after, stop), closing' ++ '}' :: t) := by
  have hard (newlines : Bool) (t : Chars) : Blank.Hard newlines ('}' :: t) :=
    Closed.hard ⟨t, rfl⟩ newlines
  have whole := fills ['}'] (hard true [])
  -- `b` is the part of the blank space that lies on the line of the value.
  obtain ⟨b, first⟩ := Blank.exists_gap false (closing ++ ['}'])
  obtain ⟨b', second⟩ := Blank.exists_gap true (Blank.skip false (closing ++ ['}']))
  have inline := Blank.token_skip false (closing ++ ['}'])
  rw [Blank.skip_skip, Blank.skip_eq_of_gap whole] at second
  generalize Blank.skip false (closing ++ ['}']) = u at first second inline
  obtain rfl : closing = b ++ b' := by
    have both := Blank.gap_true_of_false first second
    rw [whole] at both
    exact congrArg Prod.fst (Option.some.inj both)
  rcases Blank.gap_cases second with ⟨-, rfl, rfl⟩ | ⟨a, r, b'', taken, rfl, third⟩
  · rw [List.append_nil]
    have inside : Blank.Fills false b := Blank.fills_of_inline first (hard false [])
    exact ⟨b, .brace, [], Blank.fills_nil true, fun t => @behindValue_of_ends .brace _ _ inside
      fun _ => ⟨t, rfl⟩⟩
  rcases Blank.lineEnd_or_lineComment inline taken with ended | commented
  · obtain ⟨kind, rfl⟩ := Blank.lineEnd_eq_some_iff.mp ended
    refine ⟨b, .newline, b'', Blank.fills_of_across third (hard true []), fun t => ?_⟩
    simpa using behindValue_lineEnd first kind (b'' ++ '}' :: t)
  · obtain ⟨lead, c, rfl, rfl, -, -, ends⟩ := Blank.lineComment_eq_some_iff.mp commented
    -- The comment ends with its line, so it cannot reach up to the brace.
    rcases Blank.gap_cases third with ⟨-, -, rfl⟩ | ⟨le, r', b₃, taken', rfl, fourth⟩
    · exact absurd (ends '}' rfl) (by decide)
    obtain ⟨kind, rfl⟩ : (le = ['\n'] ∨ le = ['\r', '\n']) ∧ r = le ++ r' := by
      cases r with
      | nil => exact absurd taken' (by simp [Blank.token_nil])
      | cons d v =>
        have mark : d = '\n' ∨ d = '\r' := by
          have stop := ends d rfl
          by_cases h : d = '\n' <;> simp_all
        exact Blank.lineEnd_eq_some_iff.mp (Blank.lineEnd_of_token mark taken')
    refine ⟨b ++ (lead ++ c), .newline, b₃, Blank.fills_of_across fourth (hard true []),
      fun t => ?_⟩
    simpa using behindValue_lineComment first commented kind (b₃ ++ '}' :: t)

/-- An object that had no entry with a version added. -/
theorem nested_addedAlone {closing r : Chars}
    (run : nested false ((Node.object [] closing).chars ++ r) = some (.object [] closing, r))
    (stops : Stops r) (value : Chars) :
    nested false ((Node.object [addedEntry none value] closing).chars ++ r) =
      some ((Node.object [addedEntry none value] closing).asRead, r) := by
  obtain ⟨-, -, -, gap⟩ := entries_of_object run
  have fills : Blank.Fills true closing :=
    Blank.fills_of_across (show Blank.gap true _ = _ from gap) (Closed.hard ⟨r, rfl⟩ true)
  -- What stood between the braces stands behind the value now, and is read as what ends the entry.
  obtain ⟨after, stop, closing', fills', behind⟩ := behindValue_closing fills
  have read : (Node.object [addedEntry none value] closing).asRead =
      .object [.mk (addedEntry none value).asRead.key .equals
        (.mk (.written [' '] after) (.text value)) stop] closing' := by
    have alone := behind []
    rw [Node.asRead, if_pos ⟨rfl, rfl⟩, Entry.asReadAlone, alone]
    simp [addedEntry, Entry.value, Expr.written, Expr.layout, Expr.node, Entry.sign]
  rw [read]
  have space : Blank.Fills false [' '] := Blank.fills_of_spaces (by simp [Blank.isSpace])
  have taken : entry nested ((addedEntry none value).chars ++ (closing ++ '}' :: r)) =
      some (.mk (addedEntry none value).asRead.key .equals
        (.mk (.written [' '] after) (.text value)) stop, closing' ++ '}' :: r) := by
    have signed : Signed (Sign.chars .equals ++
        ([' '] ++ ((Node.text value).chars ++ (closing ++ '}' :: r)))) :=
      ⟨⟨.equals, _, rfl⟩, firm_of_sign .equals (by simp)⟩
    have filled := space ((Node.text value).chars ++ (closing ++ '}' :: r))
      fun c first => by obtain rfl := Option.some.inj first; decide
    have key := @takes_versionKey none (Blank.fills_nil true) _ signed
    have keyed : (addedEntry none value).asRead.key =
        .mk (.written [] [' ']) (.name Document.versionKey) := rfl
    refine entry_eq_some_iff.mpr ⟨_, .equals, _, _, _, .text value, _, _, stop, ?_, filled,
      nested_text (calm_of_behindValue (behind r)), behind r, rfl⟩
    rw [keyed]
    simpa [addedEntry, Entry.chars, Expr.chars, Layout.around, Stop.chars] using key
  refine nested_object ?_ ?_ (by simp) (fills' _ (Closed.hard ⟨r, rfl⟩ true)) stops
  · rfl
  · have text : entriesChars [addedEntry none value] ++ (closing ++ '}' :: r) =
        (addedEntry none value).chars ++ (closing ++ '}' :: r) := by simp [entriesChars]
    rw [text]
    refine .cons taken (advances_entry _ _ _ taken) (.nil fun e t more => ?_)
    rw [entry_eq_none_of_brace (fills' _ (Closed.hard ⟨r, rfl⟩ true))] at more
    cases more

end Grammar

/-- Several entries are read back one by one. -/
theorem Node.asRead_concat {front : List Entry} {last added : Entry} (closing : Chars) :
    (Node.object (front ++ [last, added]) closing).asRead =
      .object (front.map Entry.asRead ++ [last.asRead, added.asRead]) closing := by
  cases front with
  | nil => rfl
  | cons e front =>
    cases front with
    | nil => rfl
    | cons e' front => simp [Node.asRead]

/-- An object with a version written is read as it is printed. -/
theorem Node.reads_setVersionEntry {entries : List Entry} {closing : Chars}
    (reads : (Node.object entries closing).Reads (.object entries closing))
    (whole : WholeEntries entries) (value : Chars) :
    (Node.object (setVersionEntry entries value) closing).Reads
      (Node.object (setVersionEntry entries value) closing).asRead := by
  intro r stops
  have run := reads r stops
  cases written : retextAt? Document.versionKey value entries with
  | some changed =>
    have again := nested_retextAt run whole stops written
    have same : setVersionEntry entries value = changed := by simp [setVersionEntry, written]
    rw [same, Node.asRead_of_nested again]
    exact again
  | none =>
    have missing := retextAt?_eq_none_iff.mp written
    rw [setVersionEntry_eq_append missing]
    rcases List.eq_nil_or_concat entries with rfl | ⟨front, last, rfl⟩
    · exact nested_addedAlone run stops value
    · rw [List.concat_eq_append] at run missing whole ⊢
      have again := nested_added run whole stops missing value
      have shape : settleLast (front ++ [last]) ++ [addedEntry (front ++ [last]).getLast? value] =
          front ++ [last.settle, addedEntry (some last) value] := by
        rw [settleLast_concat, List.getLast?_concat]
        simp
      -- The entries in front of the last one are read as they were, since they came from a text.
      obtain ⟨-, chain, -, -⟩ := entries_of_object run
      have written : ∀ e ∈ front ++ [last], e.asRead = e := by
        intro e member
        obtain ⟨init, rest, split⟩ := List.append_of_mem member
        exact (at_of_chain chain (wholeEntries_iff.mp whole) split).1.asRead
      have fronts : front.map Entry.asRead = front :=
        (List.map_congr_left fun e member => written e (List.mem_append_left _ member)).trans
          (List.map_id _)
      rw [shape, Node.asRead_concat, fronts, Entry.asRead_settle (written last (by simp))]
      exact again

end TerraformPins.Hcl
