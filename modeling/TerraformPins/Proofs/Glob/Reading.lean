import Mathlib.Data.List.Infix
import TerraformPins.Proofs.Glob
import TerraformPins.Proofs.Path

/-!
# Reading a glob component by component

Outside of braces a glob is read from the left, and all that the reader keeps are the parts so far.
A slash is read as its byte. When a `**` follows that is a component of its own, this byte is taken
back, and in its place stands the part that crosses directories.

## Main definitions

* `Glob.IsPlain` — patterns in which only stars and question marks have a meaning
* `Glob.wordParts`, `Glob.componentParts` — the parts of a component and of components in a row

## Main results

* `Glob.ofChars?_of_isPlain` — the parts of a plain pattern
-/

namespace TerraformPins

namespace Glob

/-! ### Plain patterns -/

/-- A component that crosses directories. -/
def crossing : List Char := ['*', '*']

/-- The components of a pattern. -/
def components (pattern : List Char) : List (List Char) :=
  splitAll (· == '/') pattern

theorem components_ne_nil (pattern : List Char) : components pattern ≠ [] :=
  splitAll_ne_nil _ pattern

/-- A pattern without classes, choices and backslashes, none of whose components is empty. Two stars
stand behind one another only where they are a component of their own. -/
structure IsPlain (pattern : List Char) : Prop where
  noSpecial : ∀ c ∈ pattern, c ∉ ['[', '{', '}', '\\']
  filled : ∀ word ∈ components pattern, word ≠ []
  apart : ∀ word ∈ components pattern, word = crossing ∨ ¬ crossing <:+: word

instance (pattern : List Char) : Decidable (IsPlain pattern) :=
  haveI : Decidable (∀ c ∈ pattern, c ∉ ['[', '{', '}', '\\']) :=
    List.decidableBAll (fun c => c ∉ ['[', '{', '}', '\\']) pattern
  decidable_of_iff
    ((∀ c ∈ pattern, c ∉ ['[', '{', '}', '\\']) ∧ (∀ word ∈ components pattern, word ≠ []) ∧
      ∀ word ∈ components pattern, word = crossing ∨ ¬ crossing <:+: word)
    ⟨fun ⟨noSpecial, filled, apart⟩ => ⟨noSpecial, filled, apart⟩,
      fun h => ⟨h.noSpecial, h.filled, h.apart⟩⟩

/-- The parts that a character of a plain component stands for. -/
def charParts (c : Char) : List Part :=
  if c = '?' then [.any] else if c = '*' then [.star] else (utf8 c).map .byte

/-- The parts of a plain component. -/
def wordParts (word : List Char) : List Part :=
  word.flatMap charParts

/-- What stands in front of a component: nothing at the beginning of the pattern and a slash behind
another component, and where components have been crossed, the part for these. -/
def joint : (first crossed : Bool) → List Part
  | true, false => []
  | true, true => [.leading]
  | false, false => [.byte slash]
  | false, true => [.between]

theorem charParts_slash : charParts '/' = joint false false := by
  have bytes : utf8 '/' = [slash] := by decide +kernel
  rw [charParts, if_neg (by decide), if_neg (by decide), bytes]
  rfl

/-- The parts of components in a row, with what stands in front of the first one. -/
def componentParts (first crossed : Bool) : List (List Char) → List Part
  | [] => []
  | word :: more =>
    if word = crossing then
      if more = [] then [if first then .leading else .trailing] else componentParts first true more
    else joint first crossed ++ wordParts word ++ componentParts false false more

/-! ### The reader -/

namespace Draft

/-- A draft outside of braces, with the parts so far. -/
def ofParts (parts : List Part) : Draft :=
  ⟨⟨[], parts.reverse⟩, []⟩

variable (parts : List Part)

@[simp] theorem push_ofParts (p : Part) : (ofParts parts).push p = ofParts (parts ++ [p]) := by
  simp [ofParts, push]

@[simp] theorem pushChar_ofParts (c : Char) :
    (ofParts parts).pushChar c = ofParts (parts ++ (utf8 c).map .byte) := by
  have push (bs : List UInt8) (parts : List Part) :
      bs.foldl (fun d b => d.push (.byte b)) (ofParts parts) = ofParts (parts ++ bs.map .byte) := by
    induction bs generalizing parts with
    | nil => simp
    | cons b bs ih => simp [ih]
  exact push (utf8 c) parts

@[simp] theorem finish?_ofParts : (ofParts parts).finish? = some ⟨parts⟩ := by
  simp [ofParts, finish?, isNested]

/-- A `**` as a component, with another one behind it. -/
theorem doubleStar_more {first : Bool} (crossed : Bool) {front : List Part}
    (start : first = true → front = []) (behind : List Char) :
    (ofParts (front ++ joint first crossed)).doubleStar ('/' :: behind) =
      (ofParts (front ++ joint first true), 1) := by
  cases first with
  | true =>
    obtain rfl := start rfl
    cases crossed <;> rfl
  | false =>
    cases crossed <;>
      simp only [ofParts, joint, List.reverse_append, List.reverse_singleton] <;> rfl

/-- A `**` as the last component. -/
theorem doubleStar_last {first : Bool} (crossed : Bool) {front : List Part}
    (start : first = true → front = []) : (ofParts (front ++ joint first crossed)).doubleStar [] =
      (ofParts (front ++ [if first then .leading else .trailing]), 0) := by
  cases first with
  | true =>
    obtain rfl := start rfl
    cases crossed <;> rfl
  | false =>
    cases crossed <;>
      simp only [ofParts, joint, List.reverse_append, List.reverse_singleton] <;> rfl

end Draft

section Reader

open Draft

variable (lone : LoneBracket) (parts : List Part)

/-- A character without a meaning is read as its bytes. -/
theorem read?_plain {c : Char} (plain : c ∉ ['?', '*', '[', '{', '}', '\\']) (rest : List Char) :
    read? lone (ofParts parts) 0 (c :: rest) = read? lone
      (ofParts (parts ++ charParts c)) 0 rest := by
  simp only [List.mem_cons, List.not_mem_nil, or_false, not_or] at plain
  obtain ⟨question, star, bracket, opening, closing, backslash⟩ := plain
  have literal : charParts c = (utf8 c).map .byte := by rw [charParts, if_neg question, if_neg star]
  rw [literal, ← pushChar_ofParts]
  rw [read?.eq_def]
  dsimp only
  split
  case h_6 => rfl
  case h_8 => rfl
  all_goals contradiction

/-- A star that stands alone is read as any run of bytes. -/
theorem read?_star {rest : List Char} (alone : rest.head? ≠ some '*') :
    read? lone (ofParts parts) 0 ('*' :: rest) = read? lone
      (ofParts (parts ++ [.star])) 0 rest := by
  rw [← push_ofParts]
  cases rest with
  | nil => rfl
  | cons c rest =>
    have other : c ≠ '*' := fun same => alone (congrArg some same)
    rw [read?.eq_def]
    dsimp only
    split
    case h_2 => split <;> simp_all
    all_goals simp_all

/-- A plain component is read as its parts. -/
theorem read?_word {word : List Char} (rest : List Char)
    (plain : ∀ c ∈ word, c ∉ ['[', '{', '}', '\\']) (apart : ¬ crossing <:+: word)
    (behind : rest.head? ≠ some '*') : read? lone (ofParts parts) 0 (word ++ rest) =
      read? lone (ofParts (parts ++ wordParts word)) 0 rest := by
  induction word generalizing parts with
  | nil => simp [wordParts]
  | cons c word ih =>
    obtain ⟨first, later⟩ := List.forall_mem_cons.mp plain
    have apart' : ¬ crossing <:+: word := fun inside =>
      apart (inside.trans (List.suffix_cons c word).isInfix)
    have split : wordParts (c :: word) = charParts c ++ wordParts word := rfl
    rw [List.cons_append, split, ← List.append_assoc, ← ih _ later apart']
    -- A star is read together with the character behind it, which must not be another one.
    by_cases star : c = '*'
    · subst star
      apply read?_star
      cases word with
      | nil => exact behind
      | cons d word =>
        intro again
        obtain rfl := Option.some.inj again
        exact apart ⟨[], word, rfl⟩
    · by_cases question : c = '?'
      · subst question
        rw [show charParts '?' = [.any] from rfl, ← push_ofParts]
        rfl
      · apply read?_plain
        simp only [List.mem_cons, List.not_mem_nil, or_false, not_or] at first ⊢
        exact ⟨question, star, first⟩

/-- Components are read as their parts, from the beginning of the pattern or behind a slash. -/
theorem read?_components (first crossed : Bool) (front : List Part)
    (start : first = true → front = []) {words : List (List Char)} (present : words ≠ [])
    (plain : ∀ word ∈ words, ∀ c ∈ word, c ∉ ['[', '{', '}', '\\'])
    (apart : ∀ word ∈ words, word = crossing ∨ ¬ crossing <:+: word) :
    read? lone (ofParts (front ++ joint first crossed)) 0 (joinWith ['/'] words) =
      some (ofParts (front ++ componentParts first crossed words)) := by
  induction words generalizing first crossed front with
  | nil => exact absurd rfl present
  | cons word more ih =>
    obtain ⟨here, later⟩ := List.forall_mem_cons.mp plain
    obtain ⟨apartHere, apartLater⟩ := List.forall_mem_cons.mp apart
    by_cases crosses : word = crossing
    · subst crosses
      rw [componentParts, if_pos rfl]
      cases more with
      | nil =>
        have last := doubleStar_last crossed start
        rw [if_pos rfl, show joinWith ['/'] [crossing] = ['*', '*'] from rfl, read?.eq_def]
        simp only [last, read?]
      | cons next more =>
        have further := List.cons_ne_nil next more
        have between := doubleStar_more crossed start (joinWith ['/'] (next :: more))
        rw [if_neg further, ← ih first true front start further later apartLater,
          show joinWith ['/'] (crossing :: next :: more) = '*' :: '*' :: '/' :: joinWith ['/']
            (next :: more) from rfl,
          read?.eq_def]
        -- The second star and the slash have been used with the first star.
        simp only [between, read?]
    · have apartHere := apartHere.resolve_left crosses
      rw [componentParts, if_neg crosses]
      cases more with
      | nil =>
        have inside := read?_word lone (front ++ joint first crossed) [] here apartHere (by simp)
        simpa [componentParts, joinWith, read?] using inside
      | cons next more =>
        have rest := ih false false (front ++ joint first crossed ++ wordParts word) (by simp)
          (List.cons_ne_nil next more) later apartLater
        rw [show joinWith ['/'] (word :: next :: more) = word ++ '/' :: joinWith ['/']
          (next :: more) by
            simp [joinWith],
          read?_word lone (front ++ joint first crossed) _ here apartHere (by simp),
          read?_plain lone _ (by decide), charParts_slash]
        simpa only [List.append_assoc] using rest

/-- The parts of a plain pattern. -/
theorem ofChars?_of_isPlain {pattern : List Char} (plain : IsPlain pattern) :
    ofChars? lone pattern = some ⟨componentParts true false (components pattern)⟩ := by
  have joined : joinWith ['/'] (components pattern) = pattern := joinWith_splitAll '/' pattern
  have inside : ∀ word ∈ components pattern, ∀ c ∈ word, c ∉ ['[', '{', '}', '\\'] :=
    fun word member c character => plain.noSpecial c (mem_of_mem_splitAll member character).1
  have read := read?_components lone true false [] (fun _ => rfl)
    (components_ne_nil pattern) inside plain.apart
  change read? lone {} 0 (joinWith ['/'] (components pattern)) = some (ofParts _) at read
  rw [joined] at read
  rw [ofChars?, read, Option.bind_some, finish?_ofParts]
  rfl

end Reader

end Glob

end TerraformPins
