import TerraformPins.Glob.Matching

/-!
# The language of a glob

Each part of a glob stands for some runs of bytes, and a glob describes a path that can be cut into
such runs, one for each part in order. `?` and `*` stand for bytes of one component only, because a
slash is none of them. A `**` that is a component of its own stands for whole components: for
anything that ends with a slash at the front of a path, for anything between two slashes in the
middle, and for anything behind a slash at the end.

The matcher does not choose a cut. It keeps what is left of the path behind all parts so far, in all
ways at once, so it finds a cut exactly if there is one.

## Main definitions

* `Glob.Part.Takes`, `Glob.TakesAll` — the bytes that a part stands for, and parts in a row
* `Glob.Describes` — the paths that a glob describes

## Main results

* `Glob.Part.mem_remainders` — what is left of a path behind a part
* `Glob.accepts_iff_describes` — the matcher decides the language
-/

namespace TerraformPins

namespace Glob

mutual

/-- The runs of bytes that a part stands for. -/
inductive Part.Takes : Part → List UInt8 → Prop where
  | byte (b : UInt8) : Part.Takes (.byte b) [b]
  | any {b : UInt8} (inside : b ≠ slash) : Part.Takes .any [b]
  | star {run : List UInt8} (inside : slash ∉ run) : Part.Takes .star run
  | leadingNone : Part.Takes .leading []
  | leading (folders : List UInt8) : Part.Takes .leading (folders ++ [slash])
  | trailing (below : List UInt8) : Part.Takes .trailing (slash :: below)
  | betweenNone : Part.Takes .between [slash]
  | between (folders : List UInt8) : Part.Takes .between (slash :: (folders ++ [slash]))
  | byteOf {negated : Bool} {ranges : List (UInt8 × UInt8)} {b : UInt8}
      (member : inRanges ranges b ≠ negated) : Part.Takes (.byteOf negated ranges) [b]
  | eitherNone : Part.Takes (.either []) []
  | either {branches : List (List Part)} {branch : List Part} {run : List UInt8}
      (member : branch ∈ branches) (taken : TakesAll branch run) : Part.Takes (.either branches) run

/-- The runs of bytes that parts in a row stand for. -/
inductive TakesAll : List Part → List UInt8 → Prop where
  | nil : TakesAll [] []
  | cons {part : Part} {parts : List Part} {front back : List UInt8} (first : part.Takes front)
      (rest : TakesAll parts back) : TakesAll (part :: parts) (front ++ back)

end

/-- The paths that a glob describes. The glob `**` describes every path. -/
inductive Describes (g : Glob) (path : List UInt8) : Prop where
  | all (whole : g.parts = [.leading])
  | parts (taken : TakesAll g.parts path)

/-! ### Remainders -/

section Remainders

variable {α : Type} {xs rest : List α}

/-- The ends of a list are its suffixes. -/
theorem mem_ends : rest ∈ ends xs ↔ rest <:+ xs := by
  induction xs with
  | nil => simp [ends]
  | cons x xs ih => rw [ends, List.mem_cons, ih, List.suffix_cons_iff]

/-- The ends behind members of a kind. -/
theorem mem_endsWhile {p : α → Bool} :
    rest ∈ endsWhile p xs ↔ ∃ run, (∀ x ∈ run, p x = true) ∧ xs = run ++ rest := by
  induction xs with
  | nil =>
    -- The run is empty, or it begins with the first member.
    constructor
    · intro member
      obtain rfl := List.mem_singleton.mp member
      exact ⟨[], nofun, rfl⟩
    · rintro ⟨run, -, split⟩
      obtain ⟨-, rfl⟩ := List.append_eq_nil_iff.mp split.symm
      exact List.mem_singleton_self _
  | cons x xs ih =>
    rw [endsWhile, List.mem_cons]
    constructor
    · rintro (rfl | inside)
      · exact ⟨[], nofun, rfl⟩
      · by_cases first : p x = true
        · rw [if_pos first] at inside
          obtain ⟨run, all, rfl⟩ := ih.mp inside
          exact ⟨x :: run, List.forall_mem_cons.mpr ⟨first, all⟩, rfl⟩
        · rw [if_neg first] at inside
          exact absurd inside List.not_mem_nil
    · rintro ⟨run, all, split⟩
      cases run with
      | nil => exact .inl split.symm
      | cons y run =>
        obtain ⟨rfl, same⟩ := List.cons.inj split
        obtain ⟨first, more⟩ := List.forall_mem_cons.mp all
        rw [if_pos first]
        exact .inr (ih.mpr ⟨run, more, same⟩)

/-- The ends of a path behind one of its slashes. -/
theorem mem_behindSlashes {path rest : List UInt8} :
    rest ∈ behindSlashes path ↔ ∃ folders, path = folders ++ slash :: rest := by
  induction path with
  | nil => simp [behindSlashes]
  | cons b path ih =>
    have here : (∃ folders, b :: path = folders ++ slash :: rest) ↔
        (b = slash ∧ path = rest) ∨ ∃ folders, path = folders ++ slash :: rest := by
      constructor
      · rintro ⟨_ | ⟨c, folders⟩, split⟩
        · exact .inl (List.cons.inj split)
        · exact .inr ⟨folders, (List.cons.inj split).2⟩
      · rintro (⟨rfl, rfl⟩ | ⟨folders, rfl⟩)
        · exact ⟨[], rfl⟩
        · exact ⟨b :: folders, rfl⟩
    rw [here, behindSlashes]
    by_cases isSlash : b = slash
    · simp [isSlash, ih, eq_comm]
    · simp [isSlash, ih]

/-- The remainder behind one byte that satisfies `p`. -/
def behindOne (p : UInt8 → Bool) : List UInt8 → List (List UInt8)
  | b :: bs => if p b then [bs] else []
  | [] => []

/-- The end of a path behind one byte of a kind. -/
theorem mem_behindOne {p : UInt8 → Bool} {path rest : List UInt8} :
    rest ∈ behindOne p path ↔ ∃ b, p b = true ∧ path = b :: rest := by
  cases path with
  | nil => simp [behindOne]
  | cons c more =>
    rw [behindOne]
    constructor
    · intro member
      by_cases taken : p c = true
      · rw [if_pos taken] at member
        obtain rfl := List.mem_singleton.mp member
        exact ⟨c, taken, rfl⟩
      · rw [if_neg taken] at member
        exact absurd member List.not_mem_nil
    · rintro ⟨b, taken, split⟩
      obtain ⟨rfl, rfl⟩ := List.cons.inj split
      rw [if_pos taken]
      exact List.mem_singleton_self _

end Remainders

/-! ### Runs -/

namespace Part

variable {run : List UInt8}

@[simp] theorem takes_byte {b : UInt8} : (byte b).Takes run ↔ run = [b] := by
  constructor
  · intro taken
    cases taken
    rfl
  · rintro rfl
    exact .byte b

/-- A question mark stands for one byte other than a slash. -/
@[simp] theorem takes_any : any.Takes run ↔ ∃ b, b ≠ slash ∧ run = [b] := by
  constructor
  · intro taken
    cases taken with
    | any inside => exact ⟨_, inside, rfl⟩
  · rintro ⟨b, inside, rfl⟩
    exact .any inside

/-- A star stands for bytes other than slashes. -/
@[simp] theorem takes_star : star.Takes run ↔ slash ∉ run := by
  constructor
  · intro taken
    cases taken with
    | star inside => exact inside
  · exact .star

/-- A pair of stars in front stands for no folder or for some. -/
@[simp] theorem takes_leading : leading.Takes run ↔ run = [] ∨
    ∃ folders, run = folders ++ [slash] := by
  constructor
  · intro taken
    cases taken with
    | leadingNone => exact .inl rfl
    | leading folders => exact .inr ⟨folders, rfl⟩
  · rintro (rfl | ⟨folders, rfl⟩)
    · exact .leadingNone
    · exact .leading folders

/-- A pair of stars at the end stands for what is below a folder. -/
@[simp] theorem takes_trailing : trailing.Takes run ↔ ∃ below, run = slash :: below := by
  constructor
  · intro taken
    cases taken with
    | trailing below => exact ⟨below, rfl⟩
  · rintro ⟨below, rfl⟩
    exact .trailing below

/-- A pair of stars between slashes stands for one slash or for folders between two. -/
@[simp] theorem takes_between :
    between.Takes run ↔ run = [slash] ∨ ∃ folders, run = slash :: (folders ++ [slash]) := by
  constructor
  · intro taken
    cases taken with
    | betweenNone => exact .inl rfl
    | between folders => exact .inr ⟨folders, rfl⟩
  · rintro (rfl | ⟨folders, rfl⟩)
    · exact .betweenNone
    · exact .between folders

@[simp] theorem takes_byteOf {negated : Bool} {ranges : List (UInt8 × UInt8)} :
    (byteOf negated ranges).Takes run ↔ ∃ b, inRanges ranges b ≠ negated ∧ run = [b] := by
  constructor
  · intro taken
    cases taken with
    | byteOf member => exact ⟨_, member, rfl⟩
  · rintro ⟨b, member, rfl⟩
    exact .byteOf member

/-- Alternatives stand for what one of them stands for. -/
@[simp] theorem takes_either {branches : List (List Part)} :
    (either branches).Takes run ↔
      (branches = [] ∧ run = []) ∨ ∃ branch ∈ branches, TakesAll branch run := by
  constructor
  · intro taken
    cases taken with
    | eitherNone => exact .inl ⟨rfl, rfl⟩
    | either member taken => exact .inr ⟨_, member, taken⟩
  · rintro (⟨rfl, rfl⟩ | ⟨branch, member, taken⟩)
    · exact .eitherNone
    · exact .either member taken

end Part

@[simp] theorem takesAll_nil {run : List UInt8} : TakesAll [] run ↔ run = [] := by
  constructor
  · intro taken
    cases taken
    rfl
  · rintro rfl
    exact .nil

/-- A row of parts takes what its first part takes and behind it what the others take. -/
theorem takesAll_cons {part : Part} {parts : List Part} {run : List UInt8} :
    TakesAll (part :: parts) run ↔
      ∃ front back, part.Takes front ∧ TakesAll parts back ∧ run = front ++ back := by
  constructor
  · intro taken
    cases taken with
    | cons first rest => exact ⟨_, _, first, rest, rfl⟩
  · rintro ⟨front, back, first, rest, rfl⟩
    exact .cons first rest

/-- What is left behind a part that stands for one byte. -/
theorem Part.remainders_one (path : List UInt8) :
    (∀ b, (Part.byte b).remainders path = behindOne (· == b) path) ∧
      Part.any.remainders path = behindOne (· != slash) path ∧
      ∀ negated ranges, (Part.byteOf negated ranges).remainders path =
        behindOne (fun c => inRanges ranges c != negated) path := by
  cases path with
  | nil => exact ⟨fun _ => rfl, rfl, fun _ _ => rfl⟩
  | cons c more =>
    refine ⟨fun b => ?_, ?_, fun negated ranges => rfl⟩
    · simp [Part.remainders, behindOne]
    · by_cases isSlash : c = slash <;> simp [Part.remainders, behindOne, isSlash]

/-- To take one byte from the front is to take a run of one byte. -/
theorem exists_run_of_one {p : UInt8 → Prop} {path rest : List UInt8} :
    (∃ front, (∃ b, p b ∧ front = [b]) ∧ path = front ++ rest) ↔ ∃ b, p b ∧ path = b :: rest := by
  constructor
  · rintro ⟨_, ⟨b, holds, rfl⟩, rfl⟩
    exact ⟨b, holds, rfl⟩
  · rintro ⟨b, holds, rfl⟩
    exact ⟨[b], ⟨b, holds, rfl⟩, rfl⟩

/-- What a star leaves of a path. -/
theorem Part.mem_remainders_star {path rest : List UInt8} :
    rest ∈ Part.star.remainders path ↔ ∃ front, slash ∉ front ∧ path = front ++ rest := by
  have inside (run : List UInt8) : (∀ b ∈ run, (b != slash) = true) ↔ slash ∉ run := by
    simp only [bne_iff_ne]
    exact ⟨fun all member => all slash member rfl, fun none b member same => none (same ▸ member)⟩
  simp only [Part.remainders, mem_endsWhile, inside]

/-- What a pair of stars in front leaves. -/
theorem Part.mem_remainders_leading {path rest : List UInt8} :
    rest ∈ Part.leading.remainders path ↔
      ∃ front, (front = [] ∨ ∃ folders, front = folders ++ [slash]) ∧ path = front ++ rest := by
  simp only [Part.remainders, List.mem_cons, mem_behindSlashes]
  constructor
  · rintro (rfl | ⟨folders, rfl⟩)
    · exact ⟨[], .inl rfl, rfl⟩
    · exact ⟨folders ++ [slash], .inr ⟨folders, rfl⟩, by simp⟩
  · rintro ⟨front, rfl | ⟨folders, rfl⟩, rfl⟩
    · exact .inl rfl
    · exact .inr ⟨folders, by simp⟩

theorem Part.mem_remainders_trailing {path rest : List UInt8} :
    rest ∈ Part.trailing.remainders path ↔
      ∃ front, (∃ below, front = slash :: below) ∧ path = front ++ rest := by
  constructor
  · intro member
    cases path with
    | nil => cases member
    | cons c more =>
      by_cases isSlash : c = slash
      · rw [Part.remainders, if_pos isSlash, mem_ends] at member
        obtain ⟨below, rfl⟩ := member
        exact ⟨slash :: below, ⟨below, rfl⟩, by rw [isSlash, List.cons_append]⟩
      · rw [Part.remainders, if_neg isSlash] at member
        cases member
  · rintro ⟨_, ⟨below, rfl⟩, rfl⟩
    rw [List.cons_append, Part.remainders, if_pos rfl, mem_ends]
    exact List.suffix_append below rest

/-- What a pair of stars between slashes leaves. -/
theorem Part.mem_remainders_between {path rest : List UInt8} :
    rest ∈ Part.between.remainders path ↔
      ∃ front, (front = [slash] ∨ ∃ folders, front = slash :: (folders ++ [slash])) ∧
        path = front ++ rest := by
  -- Without folders in between, the slash in front is also the one behind.
  constructor
  · intro member
    cases path with
    | nil => cases member
    | cons c more =>
      by_cases isSlash : c = slash
      · rw [Part.remainders, if_pos isSlash, List.mem_cons, mem_behindSlashes] at member
        rcases member with rfl | ⟨folders, rfl⟩
        · exact ⟨[slash], .inl rfl, by rw [isSlash, List.singleton_append]⟩
        · exact ⟨slash :: (folders ++ [slash]), .inr ⟨folders, rfl⟩, by simp [isSlash]⟩
      · rw [Part.remainders, if_neg isSlash] at member
        cases member
  · rintro ⟨_, rfl | ⟨folders, rfl⟩, rfl⟩
    · rw [List.singleton_append, Part.remainders, if_pos rfl]
      exact List.mem_cons_self
    · rw [List.cons_append, Part.remainders, if_pos rfl, List.mem_cons, mem_behindSlashes]
      exact .inr ⟨folders, by simp⟩

mutual

/-- What can be left of a path behind a part is what is left behind a run that the part stands
for. -/
theorem Part.mem_remainders (part : Part) {path rest : List UInt8} :
    rest ∈ part.remainders path ↔ ∃ front, part.Takes front ∧ path = front ++ rest := by
  obtain ⟨byte, any, byteOf⟩ := Part.remainders_one path
  -- One case for each kind of part. Only a choice leads on, to the parts of its branches.
  match part with
  | .byte b => simp [byte, mem_behindOne]
  | .any => simp only [any, mem_behindOne, Part.takes_any, bne_iff_ne, exists_run_of_one]
  | .byteOf negated ranges =>
    simp only [byteOf, mem_behindOne, Part.takes_byteOf, bne_iff_ne, exists_run_of_one]
  | .star => simp only [Part.mem_remainders_star, Part.takes_star]
  | .leading => simp only [Part.mem_remainders_leading, Part.takes_leading]
  | .trailing => simp only [Part.mem_remainders_trailing, Part.takes_trailing]
  | .between => simp only [Part.mem_remainders_between, Part.takes_between]
  | .either branches =>
    have taken := @mem_branchRemainders branches path rest
    cases branches with
    | nil => simp [Part.remainders, eq_comm]
    | cons branch branches =>
      rw [Part.remainders, if_neg (by simp), taken]
      simp only [Part.takes_either]
      constructor
      · rintro ⟨chosen, member, front, run, split⟩
        exact ⟨front, .inr ⟨chosen, member, run⟩, split⟩
      · rintro ⟨front, ⟨none, -⟩ | ⟨chosen, member, run⟩, split⟩
        · cases none
        · exact ⟨chosen, member, front, run, split⟩

/-- What alternatives leave is what one of them leaves. -/
theorem mem_branchRemainders (branches : List (List Part)) {path rest : List UInt8} :
    rest ∈ branchRemainders branches path ↔
      ∃ branch ∈ branches, ∃ front, TakesAll branch front ∧ path = front ++ rest := by
  match branches with
  | [] => simp [branchRemainders]
  | branch :: branches =>
    rw [branchRemainders, List.mem_append, mem_partsRemainders branch,
      mem_branchRemainders branches]
    simp only [List.mem_cons, List.not_mem_nil, or_false, or_and_right, exists_or, exists_eq_left]

/-- What a row of parts leaves of several paths. -/
theorem mem_partsRemainders (parts : List Part) {paths : List (List UInt8)} {rest : List UInt8} :
    rest ∈ partsRemainders parts paths ↔
      ∃ path ∈ paths, ∃ front, TakesAll parts front ∧ path = front ++ rest := by
  match parts with
  | [] => simp [partsRemainders]
  | part :: parts =>
    have behind (path next : List UInt8) := @Part.mem_remainders part path next
    -- Repetitions are dropped behind each part, but no remainder is lost.
    rw [partsRemainders, mem_partsRemainders parts]
    simp only [List.mem_eraseDups, List.mem_flatMap, behind, takesAll_cons]
    constructor
    · rintro ⟨_, ⟨path, member, front, taken, rfl⟩, back, more, rfl⟩
      exact ⟨_, member, front ++ back, ⟨front, back, taken, more, rfl⟩, by simp⟩
    · rintro ⟨_, member, _, ⟨front, back, taken, more, rfl⟩, rfl⟩
      exact ⟨back ++ rest, ⟨_, member, front, taken, by simp⟩, back, more, rfl⟩

end

/-- The matcher decides the language of a glob. -/
theorem acceptsBytes_iff_describes {g : Glob} {path : List UInt8} :
    g.acceptsBytes path = true ↔ g.Describes path := by
  have cut : (partsRemainders g.parts [path]).contains [] = true ↔ TakesAll g.parts path := by
    simp [mem_partsRemainders]
  obtain ⟨parts⟩ := g
  rw [acceptsBytes]
  split
  case h_1 whole => exact iff_of_true rfl (.all whole)
  case h_2 part =>
    rw [cut]
    constructor
    · exact .parts
    · rintro (whole | taken)
      · exact absurd whole part
      · exact taken

end Glob

end TerraformPins
