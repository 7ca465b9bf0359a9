import TerraformPins.Proofs.Glob.Reading
import TerraformPins.Proofs.PathBytes

/-!
# The language of a plain glob, component by component

A plain glob is a row of components, and a path is a row of names. A component describes a name by
itself, because nothing in it takes a slash, and a `**` stands for any names in a row: also for none
where something follows it, for at least one at the end.

The reader has put the slashes into the parts, once in front of a component, once in the part for
components that are crossed. So the proof is about parts behind a slash, where all components look
the same; the beginning of a pattern is the same with one slash more.

## Main definitions

* `Glob.Matches` — the rows of names that a row of components describes

## Main results

* `Glob.takesAll_componentParts` — what the parts of components take behind a slash
* `Glob.describes_iff_matches` — the language of a plain glob
-/

namespace TerraformPins

namespace Glob

/-- The rows of names that a row of components describes. -/
inductive Matches : List (List Char) → List String → Prop where
  | done : Matches [] []
  /-- A component describes one name. -/
  | word {word : List Char} {more : List (List Char)} {name : String} {names : List String}
      (plain : word ≠ crossing) (taken : TakesAll (wordParts word) (utf8Bytes name))
      (rest : Matches more names) : Matches (word :: more) (name :: names)
  /-- A `**` at the end crosses into everything below. -/
  | all {names : List String} (present : names ≠ []) : Matches [crossing] names
  /-- A `**` in front of other components crosses any folders. -/
  | across {more : List (List Char)} {names : List String} (folders : List String)
      (further : more ≠ []) (rest : Matches more names) :
      Matches (crossing :: more) (folders ++ names)

variable {word : List Char} {more words : List (List Char)} {names : List String}

@[simp] theorem matches_nil : Matches [] names ↔ names = [] := by
  constructor
  · rintro ⟨⟩
    rfl
  · rintro rfl
    exact .done

theorem matches_word (plain : word ≠ crossing) :
    Matches (word :: more) names ↔
      ∃ name rest, names = name :: rest ∧ TakesAll (wordParts word) (utf8Bytes name) ∧
        Matches more rest := by
  constructor
  · intro described
    cases described with
    | word _ taken rest => exact ⟨_, _, rfl, taken, rest⟩
    | all => exact absurd rfl plain
    | across => exact absurd rfl plain
  · rintro ⟨name, rest, rfl, taken, described⟩
    exact .word plain taken described

theorem matches_crossing_last : Matches [crossing] names ↔ names ≠ [] := by
  constructor
  · intro described
    cases described with
    | word plain => exact absurd rfl plain
    | all present => exact present
    | across _ further => exact absurd rfl further
  · exact .all

theorem matches_crossing_more (further : more ≠ []) :
    Matches (crossing :: more) names ↔ ∃ rest, rest <:+ names ∧ Matches more rest := by
  constructor
  · intro described
    cases described with
    | word plain => exact absurd rfl plain
    | all => exact absurd rfl further
    | across folders _ rest => exact ⟨_, List.suffix_append folders _, rest⟩
  · rintro ⟨rest, ⟨folders, rfl⟩, described⟩
    exact .across folders further described

/-- Crossing twice is crossing once. -/
theorem matches_crossing_crossing :
    Matches (crossing :: crossing :: more) names ↔ Matches (crossing :: more) names := by
  rw [matches_crossing_more (List.cons_ne_nil crossing more)]
  constructor
  · rintro ⟨rest, suffix, described⟩
    by_cases further : more = []
    · subst further
      rw [matches_crossing_last] at described ⊢
      rintro rfl
      exact described (List.suffix_nil.mp suffix)
    · rw [matches_crossing_more further] at described ⊢
      obtain ⟨behind, inner, described⟩ := described
      exact ⟨behind, inner.trans suffix, described⟩
  · exact fun described => ⟨names, List.suffix_rfl, described⟩

/-! ### Runs of parts -/

theorem takesAll_append {front back : List Part} {run : List UInt8} :
    TakesAll (front ++ back) run ↔ ∃ a b, TakesAll front a ∧ TakesAll back b ∧ run = a ++ b := by
  induction front generalizing run with
  | nil => simp
  | cons part front ih =>
    simp only [List.cons_append, takesAll_cons, ih]
    constructor
    · rintro ⟨a, _, first, ⟨b, c, middle, last, rfl⟩, rfl⟩
      exact ⟨a ++ b, c, ⟨a, b, first, middle, rfl⟩, last, (List.append_assoc a b c).symm⟩
    · rintro ⟨_, c, ⟨a, b, first, middle, rfl⟩, last, rfl⟩
      exact ⟨a, b ++ c, first, ⟨b, c, middle, last, rfl⟩, List.append_assoc a b c⟩

theorem takesAll_byte {b : UInt8} {parts : List Part} {run : List UInt8} :
    TakesAll (.byte b :: parts) run ↔ ∃ rest, TakesAll parts rest ∧ run = b :: rest := by
  simp [takesAll_cons]

theorem takesAll_bytes {bytes run : List UInt8} : TakesAll (bytes.map .byte) run ↔ run = bytes := by
  induction bytes generalizing run with
  | nil => simp
  | cons b bytes ih => simp [takesAll_byte, ih]

/-- Nothing in a plain component takes a slash. -/
theorem slash_notMem_of_takesAll (noSlash : '/' ∉ word) {run : List UInt8}
    (taken : TakesAll (wordParts word) run) : slash ∉ run := by
  induction word generalizing run with
  | nil =>
    obtain rfl := takesAll_nil.mp taken
    exact List.not_mem_nil
  | cons c word ih =>
    obtain ⟨other, later⟩ := not_or.mp (List.mem_cons.not.mp noSlash)
    rw [show wordParts (c :: word) = charParts c ++ wordParts word from rfl,
      takesAll_append] at taken
    obtain ⟨front, back, first, rest, rfl⟩ := taken
    have inFront : slash ∉ front := by
      rw [charParts] at first
      split at first
      · obtain ⟨b, inside, rfl⟩ : ∃ b, b ≠ slash ∧ front = [b] := by
          simpa [takesAll_cons] using first
        exact fun member => inside (List.mem_singleton.mp member).symm
      · split at first
        · simpa [takesAll_cons] using first
        · obtain rfl := takesAll_bytes.mp first
          exact fun member => other (slash_mem_utf8.mp member).symm
    exact List.not_mem_append inFront (ih later rest)

/-- Behind a slash, crossing folders is going on with any of the names behind. -/
theorem takesAll_between (named : ∀ name ∈ names, '/' ∉ name.toList) {parts : List Part} :
    TakesAll (.between :: parts) (Path.bytesBelow names) ↔
      ∃ rest, rest <:+ names ∧ TakesAll (.byte slash :: parts) (Path.bytesBelow rest) := by
  simp only [takesAll_byte]
  constructor
  · intro taken
    obtain ⟨front, back, first, rest, split⟩ := takesAll_cons.mp taken
    -- Without folders the one slash is also the last, so in both cases a slash stands in front of
    -- the rest.
    have cut : ∃ folders, Path.bytesBelow names = folders ++ slash :: back := by
      rcases Part.takes_between.mp first with rfl | ⟨folders, rfl⟩
      · exact ⟨[], split⟩
      · exact ⟨slash :: folders, by simp [split]⟩
    obtain ⟨folders, split⟩ := cut
    obtain ⟨later, suffix, bytes⟩ := Path.exists_suffix_of_bytesBelow named split
    exact ⟨later, suffix, back, rest, bytes⟩
  · rintro ⟨later, ⟨folders, rfl⟩, back, rest, bytes⟩
    rw [Path.bytesBelow_append, bytes]
    cases folders with
    | nil => exact takesAll_cons.mpr ⟨[slash], back, .betweenNone, rest, rfl⟩
    | cons folder folders =>
      exact takesAll_cons.mpr ⟨_, back, .between (utf8Bytes folder ++ Path.bytesBelow folders),
        rest, by simp⟩

/-! ### Components -/

/-- Behind a component, what the parts take begins with a slash. -/
theorem head_of_takesAll_componentParts {crossed : Bool} {run : List UInt8}
    (taken : TakesAll (componentParts false crossed words) run) : ∀ b ∈ run.head?, b = slash := by
  induction words generalizing crossed with
  | nil =>
    obtain rfl := takesAll_nil.mp taken
    simp
  | cons word more ih =>
    rw [componentParts] at taken
    split at taken
    · split at taken
      · obtain ⟨below, rfl⟩ : ∃ below, run = slash :: below := by simpa [takesAll_cons] using taken
        simp
      · exact ih taken
    · cases crossed with
      | false =>
        obtain ⟨rest, -, rfl⟩ := takesAll_byte.mp taken
        simp
      | true =>
        obtain ⟨front, back, first, -, rfl⟩ := takesAll_cons.mp taken
        rcases Part.takes_between.mp first with rfl | ⟨folders, rfl⟩ <;> simp

/-- Behind a slash, a component takes a name, and the components behind it take the names behind. -/
theorem takesAll_word (noSlash : '/' ∉ word) (named : ∀ name ∈ names, '/' ∉ name.toList) :
    TakesAll (.byte slash :: (wordParts word ++ componentParts false false more))
      (Path.bytesBelow names) ↔
      ∃ name rest, names = name :: rest ∧ TakesAll (wordParts word) (utf8Bytes name) ∧
        TakesAll (componentParts false false more) (Path.bytesBelow rest) := by
  simp only [takesAll_byte, takesAll_append]
  constructor
  · rintro ⟨_, ⟨front, back, first, rest, rfl⟩, split⟩
    cases names with
    | nil => simp at split
    | cons name names =>
      -- Neither the component nor the name has a slash, so both end in front of the next one.
      have noSlash' := (List.forall_mem_cons.mp named).1
      obtain ⟨rfl, rfl⟩ := append_inj_of_slash (mt slash_mem_utf8Bytes.mp noSlash')
        (slash_notMem_of_takesAll noSlash first) (Path.head_bytesBelow names)
        (head_of_takesAll_componentParts rest) (List.cons.inj split).2
      exact ⟨name, names, rfl, first, rest⟩
  · rintro ⟨name, rest, rfl, first, behind⟩
    exact ⟨_, ⟨_, _, first, behind, rfl⟩, rfl⟩

/-- What the parts of components take behind a slash. -/
theorem takesAll_componentParts (crossed : Bool) (present : crossed = true → words ≠ [])
    (noSlash : ∀ word ∈ words, '/' ∉ word) (named : ∀ name ∈ names, '/' ∉ name.toList) :
    TakesAll (componentParts false crossed words) (Path.bytesBelow names) ↔
      Matches (if crossed then crossing :: words else words) names := by
  -- On the components. A component that crosses only changes what is expected behind it.
  induction words generalizing crossed names with
  | nil =>
    obtain rfl : crossed = false := by simpa using present
    simp [componentParts, Path.bytesBelow_eq_nil_iff]
  | cons word more ih =>
    obtain ⟨here, later⟩ := List.forall_mem_cons.mp noSlash
    by_cases crosses : word = crossing
    · subst crosses
      have once :
          Matches (if crossed then crossing :: crossing :: more else crossing :: more) names ↔
            Matches (crossing :: more) names := by
        cases crossed with
        | false => exact Iff.rfl
        | true => exact matches_crossing_crossing
      rw [once, componentParts, if_pos rfl]
      by_cases last : more = []
      · subst last
        rw [if_pos rfl, matches_crossing_last]
        cases names <;> simp [takesAll_cons]
      · rw [if_neg last, ih true (fun _ => last) later named]
        rfl
    · have word' {names : List String} (named : ∀ name ∈ names, '/' ∉ name.toList) :
          TakesAll (.byte slash :: (wordParts word ++ componentParts false false more))
            (Path.bytesBelow names) ↔ Matches (word :: more) names := by
        rw [takesAll_word here named, matches_word crosses]
        constructor
        · rintro ⟨name, rest, rfl, first, behind⟩
          exact ⟨name, rest, rfl, first,
            (ih false (by simp) later (List.forall_mem_cons.mp named).2).mp behind⟩
        · rintro ⟨name, rest, rfl, first, behind⟩
          exact ⟨name, rest, rfl, first,
            (ih false (by simp) later (List.forall_mem_cons.mp named).2).mpr behind⟩
      rw [componentParts, if_neg crosses]
      cases crossed with
      | false => exact word' named
      | true =>
        change TakesAll (.between :: (wordParts word ++ componentParts false false more)) _ ↔
          Matches (crossing :: word :: more) names
        rw [takesAll_between named, matches_crossing_more (List.cons_ne_nil word more)]
        constructor
        · rintro ⟨rest, suffix, taken⟩
          exact ⟨rest, suffix,
            (word' fun name member => named name (suffix.subset member)).mp taken⟩
        · rintro ⟨rest, suffix, described⟩
          exact ⟨rest, suffix,
            (word' fun name member => named name (suffix.subset member)).mpr described⟩

/-! ### The beginning of a pattern -/

/-- Crossing folders at the beginning is crossing them behind a slash. -/
theorem takesAll_leading {parts : List Part} {path : List UInt8} :
    TakesAll (.leading :: parts) path ↔ TakesAll (.between :: parts) (slash :: path) := by
  simp only [takesAll_cons, Part.takes_leading, Part.takes_between]
  constructor
  · rintro ⟨front, back, rfl | ⟨folders, rfl⟩, rest, rfl⟩
    · exact ⟨[slash], _, .inl rfl, rest, rfl⟩
    · exact ⟨slash :: (folders ++ [slash]), back, .inr ⟨folders, rfl⟩, rest, rfl⟩
  · rintro ⟨_, back, rfl | ⟨folders, rfl⟩, rest, split⟩
    · exact ⟨[], back, .inl rfl, rest, (List.cons.inj split).2⟩
    · exact ⟨folders ++ [slash], back, .inr ⟨folders, rfl⟩, rest, (List.cons.inj split).2⟩

theorem describes_iff_takesAll {parts : List Part} (cut : parts ≠ [.leading]) {path : List UInt8} :
    Describes ⟨parts⟩ path ↔ TakesAll parts path := by
  constructor
  · rintro (whole | taken)
    · exact absurd whole cut
    · exact taken
  · exact .parts

theorem leading_notMem_wordParts (word : List Char) : .leading ∉ wordParts word := by
  intro member
  obtain ⟨c, -, inside⟩ := List.mem_flatMap.mp member
  rw [charParts] at inside
  split at inside
  · simp at inside
  · split at inside <;> simp at inside

theorem wordParts_eq_nil_iff : wordParts word = [] ↔ word = [] := by
  cases word with
  | nil => exact iff_of_true rfl rfl
  | cons c word =>
    refine iff_of_false (fun none => ?_) (List.cons_ne_nil c word)
    have first : charParts c = [] := (List.append_eq_nil_iff.mp none).1
    rw [charParts, utf8_eq] at first
    split at first
    · simp at first
    · split at first <;> simp at first

/-- The parts at the beginning describe what the same parts take behind a slash. -/
theorem describes_componentParts (crossed : Bool) (present : words ≠ [])
    (filled : ∀ word ∈ words, word ≠ []) {path : List UInt8} :
    Describes ⟨componentParts true crossed words⟩ path ↔
      TakesAll (componentParts false crossed words) (slash :: path) := by
  induction words generalizing crossed with
  | nil => exact absurd rfl present
  | cons word more ih =>
    obtain ⟨here, later⟩ := List.forall_mem_cons.mp filled
    rw [componentParts, componentParts]
    by_cases crosses : word = crossing
    · rw [if_pos crosses, if_pos crosses]
      by_cases last : more = []
      · rw [if_pos last, if_pos last]
        exact iff_of_true (.all rfl) (by simp [takesAll_cons])
      · rw [if_neg last, if_neg last, ih true last later]
    · rw [if_neg crosses, if_neg crosses, List.append_assoc, List.append_assoc]
      obtain ⟨part, parts, split⟩ := List.exists_cons_of_ne_nil (mt wordParts_eq_nil_iff.mp here)
      -- Only a `**` alone describes everything, and here a component with parts of its own stands
      -- behind it.
      have flat : part ≠ .leading := by
        rintro rfl
        exact leading_notMem_wordParts word (split ▸ List.mem_cons_self)
      rw [split]
      cases crossed with
      | false =>
        refine (describes_iff_takesAll fun whole => flat (List.cons.inj whole).1).trans ?_
        simp [joint, takesAll_byte]
      | true =>
        refine (describes_iff_takesAll fun whole => ?_).trans takesAll_leading
        cases (List.cons.inj whole).2

/-- A plain glob describes the paths with the names that its components match. -/
theorem describes_iff_matches {lone : LoneBracket} {pattern : List Char} (plain : IsPlain pattern)
    {glob : Glob} (read : ofChars? lone pattern = some glob) (present : names ≠ [])
    (named : ∀ name ∈ names, '/' ∉ name.toList) :
    glob.Describes (utf8Bytes (Path.ofNames names)) ↔ Matches (components pattern) names := by
  obtain rfl := Option.some.inj ((ofChars?_of_isPlain lone plain).symm.trans read)
  have noSlash : ∀ word ∈ components pattern, '/' ∉ word := by
    intro word member inside
    simpa using (mem_of_mem_splitAll member inside).2
  rw [describes_componentParts false (components_ne_nil pattern) plain.filled,
    Path.slash_cons_utf8Bytes_ofNames present, takesAll_componentParts false
    (by simp) noSlash named]
  rfl

end Glob

end TerraformPins
