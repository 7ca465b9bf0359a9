import TerraformPins.Glob
import TerraformPins.Path

/-!
# Paths as bytes

A glob is matched against the bytes of a path. Only a slash has the byte of a slash, so the names of
a path can be told apart in its bytes. With a slash in front of every name they are as easy to cut
as the names themselves.

## Main definitions

* `Path.bytesBelow` — the bytes of names with a slash in front of each

## Main results

* `slash_mem_utf8` — the characters whose bytes contain a slash
* `Path.exists_suffix_of_bytesBelow` — cutting the bytes of names at a slash
-/

namespace TerraformPins

private theorem toList_loop_eq (bytes : ByteArray) (i : Nat) (read : List UInt8) :
    ByteArray.toList.loop bytes i read = read.reverse ++ bytes.data.toList.drop i := by
  fun_induction ByteArray.toList.loop bytes i read with
  | case1 i read inside ih =>
    have within : i < bytes.data.toList.length := by simpa using inside
    have byte : bytes.get! i = bytes.data.toList[i] := by
      rw [show bytes.get! i = bytes.data[i]! from rfl, getElem!_pos bytes.data i inside,
        Array.getElem_toList]
    rw [ih, List.drop_eq_getElem_cons within, byte]
    simp
  | case2 i read inside =>
    rw [List.drop_eq_nil_of_le (by simpa using inside)]
    simp

private theorem toUTF8_toList (s : String) :
    s.toUTF8.toList = s.toList.flatMap String.utf8EncodeChar := by
  have data (bytes : ByteArray) : bytes.toList = bytes.data.toList := by
    rw [ByteArray.toList, toList_loop_eq]
    simp
  obtain ⟨cs, rfl⟩ : ∃ cs, s = String.ofList cs := ⟨s.toList, String.ofList_toList.symm⟩
  rw [data, show (String.ofList cs).toUTF8 =
    (cs.flatMap String.utf8EncodeChar).toByteArray from rfl,
    List.data_toByteArray, String.toList_ofList]

/-- The bytes of a character are those of its encoding. -/
theorem utf8_eq (c : Char) : utf8 c = String.utf8EncodeChar c := by
  rw [utf8, toUTF8_toList]
  simp

/-- The bytes of a text are those of its characters. -/
theorem utf8Bytes_eq (s : String) : utf8Bytes s = s.toList.flatMap utf8 := by
  rw [utf8Bytes, toUTF8_toList, funext utf8_eq]

private theorem slash_ne_ofNat {n : Nat} (high : 128 ≤ n) (bound : n < 256) :
    slash ≠ UInt8.ofNat n := by
  intro same
  have value : slash.toNat = n := by rw [same, UInt8.toNat_ofNat', Nat.mod_eq_of_lt bound]
  have slashValue : slash.toNat = 47 := rfl
  omega

/-- The bytes of a character with several of them are high, so only the slash has the byte of a
slash. -/
theorem slash_mem_utf8 {c : Char} : slash ∈ utf8 c ↔ c = '/' := by
  rw [utf8_eq]
  constructor
  · intro member
    rw [String.utf8EncodeChar] at member
    by_cases ascii : c.val.toNat ≤ 127
    · rw [if_pos ascii, List.mem_singleton] at member
      have value : c.val.toNat = 47 := by
        have bytes := congrArg UInt8.toNat member
        rw [UInt8.toNat_ofNat', Nat.mod_eq_of_lt (by omega)] at bytes
        exact bytes.symm
      exact Char.ext (UInt32.toNat_inj.mp value)
    · rw [if_neg ascii] at member
      refine absurd member ?_
      repeat' split
      all_goals
        simp (disch := omega) only [List.mem_cons, List.not_mem_nil, or_false, slash_ne_ofNat,
          not_false_eq_true]
  · rintro rfl
    decide +kernel

/-- No byte of another character is a slash, so there is one among the bytes if there is one in the
text. -/
theorem slash_mem_utf8Bytes {s : String} : slash ∈ utf8Bytes s ↔ '/' ∈ s.toList := by
  simp only [utf8Bytes_eq, List.mem_flatMap, slash_mem_utf8, exists_eq_right]

/-- Without a slash, two runs of bytes in front of the end or of a slash are the same in the same
bytes. -/
theorem append_inj_of_slash {front front' back back' : List UInt8} (inFront : slash ∉ front)
    (inFront' : slash ∉ front') (atBack : ∀ b ∈ back.head?, b = slash)
    (atBack' : ∀ b ∈ back'.head?, b = slash)
    (same : front ++ back = front' ++ back') : front = front' ∧ back = back' := by
  have taken {front back : List UInt8} (inFront : slash ∉ front)
      (atBack : ∀ b ∈ back.head?, b = slash) : (front ++ back).takeWhile (· != slash) = front := by
    rw [List.takeWhile_append_of_pos fun b member => by
      rw [bne_iff_ne]
      exact fun isSlash => inFront (isSlash ▸ member)]
    cases back with
    | nil => simp
    | cons b back => simp [atBack b (by simp)]
  have first : front = front' := by rw [← taken inFront atBack, same, taken inFront' atBack']
  exact ⟨first, List.append_cancel_left (first ▸ same)⟩

namespace Path

/-- The bytes of names with a slash in front of each. -/
def bytesBelow (names : List String) : List UInt8 :=
  names.flatMap fun name => slash :: utf8Bytes name

@[simp] theorem bytesBelow_nil : bytesBelow [] = [] := rfl

@[simp] theorem bytesBelow_cons (name : String) (names : List String) :
    bytesBelow (name :: names) = slash :: (utf8Bytes name ++ bytesBelow names) := rfl

/-- The bytes below a folder begin with a slash. -/
theorem head_bytesBelow (names : List String) : ∀ b ∈ (bytesBelow names).head?, b = slash := by
  cases names <;> simp

/-- Only no names have no bytes. -/
theorem bytesBelow_eq_nil_iff {names : List String} : bytesBelow names = [] ↔ names = [] := by
  cases names <;> simp

/-- The bytes of names one below the other. -/
theorem bytesBelow_append (front back : List String) :
    bytesBelow (front ++ back) = bytesBelow front ++ bytesBelow back :=
  List.flatMap_append

/-- The bytes of a path have a slash between its names. -/
theorem slash_cons_utf8Bytes_ofNames {names : List String} (present : names ≠ []) :
    slash :: utf8Bytes (ofNames names) = bytesBelow names := by
  have separator : utf8 '/' = [slash] := by decide +kernel
  rw [ofNames, utf8Bytes_eq, String.toList_ofList]
  induction names with
  | nil => exact absurd rfl present
  | cons name names ih =>
    rw [bytesBelow_cons, utf8Bytes_eq]
    cases names with
    | nil => simp [joinWith]
    | cons next names =>
      rw [← ih (List.cons_ne_nil next names)]
      simp [joinWith, separator]

/-- What is left of names behind a slash is what is left of them behind some of them. -/
theorem exists_suffix_of_bytesBelow {names : List String}
    (named : ∀ name ∈ names, '/' ∉ name.toList) {front back : List UInt8}
    (split : bytesBelow names = front ++ slash :: back) :
    ∃ rest, rest <:+ names ∧ bytesBelow rest = slash :: back := by
  induction names generalizing front with
  | nil => simp at split
  | cons name names ih =>
    obtain ⟨noSlash, later⟩ := List.forall_mem_cons.mp named
    cases front with
    | nil => exact ⟨name :: names, List.suffix_rfl, split⟩
    | cons b front =>
      have behind := (List.cons.inj split).2
      -- the slash comes behind the first name, which has none
      have further : ∃ front', bytesBelow names = front' ++ slash :: back := by
        rcases List.append_eq_append_iff.mp behind with ⟨front', -, rest⟩ | ⟨inside, name', rest⟩
        · exact ⟨front', rest⟩
        · cases inside with
          | nil => exact ⟨[], rest.symm⟩
          | cons c inside =>
            obtain ⟨rfl, -⟩ := List.cons.inj rest
            exact absurd (slash_mem_utf8Bytes.mp (by simp [name'])) noSlash
      obtain ⟨front', split'⟩ := further
      obtain ⟨rest, suffix, bytes⟩ := ih later split'
      exact ⟨rest, suffix.trans (List.suffix_cons name names), bytes⟩

end Path

end TerraformPins
