import TerraformPins.FileTree.Text
import TerraformPins.Proofs.Text

/-!
# Writing into a file tree

Writing the text of a file changes its bytes and nothing else, also if it fails: what kind of thing
is where stays the same, and so does the place that a path reaches, since a lookup asks for links
and folders only. The other files keep their bytes and all files their permission bits.

## Main definitions

* `FileTree.Kind`, `FileTree.kind` — what something in a file tree is, apart from what it holds
* `FileTree.Alike` — two trees with the same kinds of things in the same places
* `FileTree.Apart` — two paths do not reach the same file

## Main results

* `FileTree.get?_setBytes` — what is where after a write
* `FileTree.Alike.place_eq` — paths reach the same places in alike trees
* `File.overwrite_cases` — what a write leaves in a file
* `FileTree.writeText_of_file` — a write to a file changes this file at most
* `FileTree.file?_setBytes` — a write leaves the files that other paths reach
-/

namespace TerraformPins

namespace FileTree

/-- What something in a file tree is, apart from what it holds. -/
inductive Kind where
  | file (mode : Nat) (readable : Bool) (writeFault? : Option WriteFault)
  | link (target : String)
  | folder (access : FolderAccess)
  deriving DecidableEq, Repr

/-- What a tree is at its root. -/
def kind : FileTree → Kind
  | .file data => .file data.mode data.readable data.writeFault?
  | .link target => .link target
  | .folder access _ => .folder access

/-- Two trees with the same kinds of things in the same places. -/
def Alike (t u : FileTree) : Prop :=
  ∀ place, (t.get? place).map kind = (u.get? place).map kind

/-- Two paths that do not reach the same file. -/
def Apart (t : FileTree) (p q : String) : Prop :=
  t.isFile p = true → t.place p ≠ t.place q

/-! ### The places after a write -/

section Write

variable (bytes : ByteArray)

@[simp] theorem get?_nil (t : FileTree) : t.get? [] = some t := by
  cases t <;> rfl

theorem lookup_map (change : String → FileTree → FileTree) (name : String)
    (entries : List (String × FileTree)) :
    (entries.map fun (n, t) => (n, change n t)).lookup name =
      (entries.lookup name).map (change name) := by
  induction entries with
  | nil => rfl
  | cons entry entries ih =>
    obtain ⟨n, t⟩ := entry
    by_cases same : name = n
    · subst same
      simp
    · have differs : (name == n) = false := by simpa using same
      simp only [List.map_cons, List.lookup_cons, differs, ih]

/-- What is at a location after a write: the written tree at and above the place, and what was there
before at all the others. -/
theorem get?_setBytes (t : FileTree) (place at' : Location) :
    (t.setBytes bytes place).get? at' =
      (t.get? at').map fun here =>
        match stripFront? at' place with
        | some below => here.setBytes bytes below
        | none => here := by
  induction place generalizing t at' with
  | nil =>
    cases at' with
    | nil => simp [stripFront?]
    | cons name names => cases t <;> simp [setBytes, get?, stripFront?]
  | cons first rest ih =>
    cases at' with
    | nil => simp [stripFront?]
    | cons name names =>
      cases t with
      | file data => simp [setBytes, get?]
      | link target => simp [setBytes, get?]
      | folder access entries =>
        have found := lookup_map
          (fun n t => if n = first then t.setBytes bytes rest else t) name entries
        simp only [setBytes, get?, found, stripFront?, beq_iff_eq]
        cases entries.lookup name with
        | none => rfl
        | some t =>
          by_cases onTheWay : name = first
          · simp [onTheWay, ih]
          · simp [onTheWay]

theorem kind_setBytes (t : FileTree) (place : Location) :
    (t.setBytes bytes place).kind = t.kind := by
  cases t <;> cases place <;> rfl

theorem alike_setBytes (t : FileTree) (place : Location) : Alike t (t.setBytes bytes place) := by
  intro at'
  rw [get?_setBytes, Option.map_map]
  congr 1
  funext here
  simp only [Function.comp]
  split
  · exact (kind_setBytes bytes here _).symm
  · rfl

/-- A write leaves the files at all other locations. -/
theorem fileAt?_setBytes_of_ne (t : FileTree) {place other : Location} (differs : other ≠ place) :
    (t.setBytes bytes place).fileAt? other = t.fileAt? other := by
  unfold fileAt?
  rw [get?_setBytes]
  cases t.get? other with
  | none => rfl
  | some here =>
    cases stripped : stripFront? other place with
    | none => rfl
    | some below =>
      have split := stripFront?_eq_some_iff.mp stripped
      cases below with
      | nil => exact absurd (split.trans (List.append_nil other)).symm differs
      -- The place lies below `other`, and there is nothing below a file.
      | cons name names => cases here <;> rfl

/-- A file that is written holds the written bytes and is otherwise what it was. -/
theorem fileAt?_setBytes_self {t : FileTree} {place : Location} {data : File}
    (found : t.fileAt? place = some data) :
    (t.setBytes bytes place).fileAt? place = some { data with bytes := bytes } := by
  have whole : stripFront? place place = some [] := by
    simpa using stripFront?_append place []
  unfold fileAt? at found ⊢
  split at found
  case h_1 here =>
    cases found
    rw [get?_setBytes, here, whole]
    rfl
  case h_2 => cases found

end Write

/-! ### Alike trees -/

namespace Alike

variable {t u v : FileTree}

theorem refl (t : FileTree) : Alike t t := fun _ => rfl

theorem trans (first : Alike t u) (second : Alike u v) : Alike t v :=
  fun place => (first place).trans (second place)

/-- What two alike trees can have at a place. -/
theorem get?_cases (alike : Alike t u) (place : Location) :
    (t.get? place = none ∧ u.get? place = none) ∨
      (∃ data bytes, t.get? place = some (.file data) ∧
        u.get? place = some (.file { data with bytes := bytes })) ∨
      (∃ target, t.get? place = some (.link target) ∧ u.get? place = some (.link target)) ∨
      ∃ access xs ys, t.get? place = some (.folder access xs) ∧
        u.get? place = some (.folder access ys) := by
  have here := alike place
  rcases inT : t.get? place with _ | (⟨bytes, _, _, _⟩ | _ | _) <;>
    rcases inU : u.get? place with _ | (⟨bytes', _, _, _⟩ | _ | _) <;> simp_all [kind]

theorem isFolderAt_eq (alike : Alike t u) (place : Location) :
    t.isFolderAt place = u.isFolderAt place := by
  unfold isFolderAt
  obtain ⟨inT, inU⟩ | ⟨_, _, inT, inU⟩ | ⟨_, inT, inU⟩ | ⟨_, _, _, inT, inU⟩ :=
    alike.get?_cases place <;> rw [inT, inU]

theorem canEnter_eq (alike : Alike t u) (place : Location) :
    t.canEnter place = u.canEnter place := by
  unfold canEnter
  obtain ⟨inT, inU⟩ | ⟨_, _, inT, inU⟩ | ⟨_, inT, inU⟩ | ⟨_, _, _, inT, inU⟩ :=
    alike.get?_cases place <;> rw [inT, inU]

theorem isSome_fileAt?_eq (alike : Alike t u) (place : Location) :
    (t.fileAt? place).isSome = (u.fileAt? place).isSome := by
  unfold fileAt?
  obtain ⟨inT, inU⟩ | ⟨_, _, inT, inU⟩ | ⟨_, inT, inU⟩ | ⟨_, _, _, inT, inU⟩ :=
    alike.get?_cases place <;> simp [inT, inU]

/-- Reading fails in the same way where two alike trees have the same file, and where neither has
one. -/
theorem bytesAt_eq (alike : Alike t u) {place : Location}
    (same : t.fileAt? place = u.fileAt? place) : t.bytesAt place = u.bytesAt place := by
  unfold fileAt? at same
  unfold bytesAt
  obtain ⟨inT, inU⟩ | ⟨_, _, inT, inU⟩ | ⟨_, inT, inU⟩ | ⟨_, _, _, inT, inU⟩ :=
    alike.get?_cases place <;> rw [inT, inU] at same ⊢
  rw [← Option.some.inj same]

theorem follow_eq (alike : Alike t u) (place : Location) (parts : List String) :
    t.follow place parts = u.follow place parts := by
  induction parts generalizing place with
  | nil => rfl
  | cons part parts ih =>
    simp only [follow, alike.isFolderAt_eq, alike.canEnter_eq, ih]
    obtain ⟨inT, inU⟩ | ⟨_, _, inT, inU⟩ | ⟨_, inT, inU⟩ | ⟨_, _, _, inT, inU⟩ :=
      alike.get?_cases (place ++ [part]) <;> rw [inT, inU]

theorem locateParts_eq (alike : Alike t u) (links : Nat) (place : Location)
    (parts : List String) : t.locateParts links place parts = u.locateParts links place parts := by
  induction links generalizing place parts with
  | zero => rw [locateParts, locateParts, alike.follow_eq]
  | succ links ih =>
    rw [locateParts, locateParts, alike.follow_eq]
    cases u.follow place parts with
    | reached _ => rfl
    | failed _ => rfl
    | atLink here target rest => exact ih _ _

/-- Paths reach the same places in alike trees. -/
theorem place_eq (alike : Alike t u) (path : String) : t.place path = u.place path := by
  simp only [place, locate, alike.locateParts_eq]

theorem isFile_eq (alike : Alike t u) (path : String) : t.isFile path = u.isFile path := by
  simp only [isFile, file?, alike.place_eq]
  cases u.place path with
  | error fault => rfl
  | ok place => exact alike.isSome_fileAt?_eq place

/-- Paths that reach different files do so in every tree alike. -/
theorem apart (alike : Alike t u) {p q : String} (apart : t.Apart p q) : u.Apart p q := by
  unfold Apart at apart ⊢
  rwa [← alike.isFile_eq, ← alike.place_eq, ← alike.place_eq]

end Alike

/-! ### Reading and writing text -/

end FileTree

namespace File

variable {data : File} {bytes : ByteArray}

/-- A write leaves all the new bytes in a file, or a front part of them, or the bytes it had. Only
all of them if it goes through. -/
theorem overwrite_cases (data : File) (bytes : ByteArray) :
    (data.overwrite bytes).2 = bytes ∨
      (∃ fault, (data.overwrite bytes).1 = .error fault) ∧
        ((data.overwrite bytes).2 = data.bytes ∨
          ∃ count, (data.overwrite bytes).2 = bytes.extract 0 count) := by
  unfold overwrite
  split
  · exact .inr ⟨⟨_, rfl⟩, .inl rfl⟩
  · split
    · exact .inl rfl
    · exact .inr ⟨⟨_, rfl⟩, .inr ⟨_, rfl⟩⟩
  · exact .inl rfl

theorem overwrite_of_ok (done : (data.overwrite bytes).1 = .ok ()) :
    (data.overwrite bytes).2 = bytes := by
  rcases overwrite_cases data bytes with all | ⟨⟨fault, failed⟩, -⟩
  · exact all
  · rw [failed] at done
    cases done

end File

namespace FileTree

section Text

variable {t u : FileTree} {p q : String} {place : Location} {data : File} {text : String}

theorem fileAt?_eq_some_iff : t.fileAt? place = some data ↔ t.get? place = some (.file data) := by
  unfold fileAt?
  split <;> simp_all

/-- A path reaches a file if the file is at the place that it reaches. -/
theorem file?_eq_some_iff :
    t.file? p = some data ↔ ∃ place, t.place p = .ok place ∧ t.fileAt? place = some data := by
  unfold file?
  cases t.place p <;> simp [Except.toOption]

theorem isFile_of_file? (found : t.file? p = some data) : t.isFile p = true := by
  rw [isFile, found]
  rfl

/-- What has to hold for the text of a file to be read. -/
theorem readText_eq_ok_iff : t.readText p = .ok text ↔
    ∃ place data, t.place p = .ok place ∧ t.fileAt? place = some data ∧ data.readable = true ∧
      String.fromUTF8? data.bytes = some text := by
  unfold readText
  cases reached : t.place p with
  | error fault => simp [Except.mapError, bind, Except.bind]
  | ok place =>
    have located : t.locate [] p = .ok place := reached
    cases found : t.fileAt? place with
    | none => simp [found, Except.mapError, bind, Except.bind]
    | some data =>
      have here := fileAt?_eq_some_iff.mp found
      cases readable : data.readable <;> cases decoded : String.fromUTF8? data.bytes <;>
        simp [textFrom, bytesAt, located, found, here, readable, decoded, Except.mapError, bind,
          Except.bind]

theorem fromUTF8?_toUTF8 (text : String) : String.fromUTF8? text.toUTF8 = some text := by
  rw [String.fromUTF8?, dif_pos (show text.toUTF8.IsValidUTF8 from text.isValidUTF8)]
  rfl

/-- A file that can be read and holds the bytes of a text has this text, from every folder. -/
theorem textFrom_of_bytes {folder : Location} (reached : t.locate folder p = .ok place)
    (found : t.fileAt? place = some data) (readable : data.readable = true)
    (holds : data.bytes = text.toUTF8) : t.textFrom folder p = .ok text := by
  simp only [textFrom, reached, bytesAt, fileAt?_eq_some_iff.mp found, readable, holds,
    fromUTF8?_toUTF8, if_true, bind, Except.bind]

theorem readText_of_bytes (reached : t.place p = .ok place) (found : t.fileAt? place = some data)
    (readable : data.readable = true) (holds : data.bytes = text.toUTF8) :
    t.readText p = .ok text :=
  readText_eq_ok_iff.mpr ⟨place, data, reached, found, readable, by rw [holds, fromUTF8?_toUTF8]⟩

/-- A fault of a path is an error about this path. -/
theorem path_of_mapError {α : Type} {e : FileError} {x : Except IoFault α}
    (failed : x.mapError (FileError.io p) = .error e) : e.path = p := by
  cases x with
  | error fault =>
    cases failed
    rfl
  | ok => cases failed

theorem path_of_readText_error {e : FileError} (failed : t.readText p = .error e) : e.path = p := by
  unfold readText at failed
  cases reached : t.place p with
  | error fault =>
    rw [reached] at failed
    cases failed
    rfl
  | ok place =>
    rw [reached] at failed
    change (if (t.fileAt? place).isNone then _ else _) = _ at failed
    split at failed
    · cases failed
      rfl
    · exact path_of_mapError failed

/-- A text is read from the file that the path reaches. -/
theorem readText_congr (alike : Alike t u) (same : t.file? p = u.file? p) :
    t.readText p = u.readText p := by
  have reached := alike.place_eq p
  unfold file? at same
  unfold readText textFrom
  rw [← reached] at same ⊢
  unfold place at reached same ⊢
  rw [← reached]
  cases located : t.locate [] p with
  | error fault => rfl
  | ok place =>
    rw [located] at same
    have data : t.fileAt? place = u.fileAt? place := same
    simp only [bind, Except.bind, Except.mapError, data, alike.bytesAt_eq data]

/-- What a write to a file gives, and what it leaves. -/
theorem writeText_of_file (reached : t.place p = .ok place) (found : t.fileAt? place = some data)
    (new : String) : t.writeText p new =
      (((data.overwrite new.toUTF8).1.bind fun _ => data.setSameMode).mapError (.io p),
        t.setBytes (data.overwrite new.toUTF8).2 place) := by
  simp only [writeText, reached, found]
  rfl

theorem path_of_writeText_error {e : FileError} {new : String}
    (failed : (t.writeText p new).1 = .error e) : e.path = p := by
  cases reached : t.place p with
  | error fault =>
    rw [writeText, reached] at failed
    cases failed
    rfl
  | ok place =>
    cases found : t.fileAt? place with
    | none =>
      simp only [writeText, reached, found] at failed
      cases failed
      rfl
    | some data =>
      rw [writeText_of_file reached found] at failed
      exact path_of_mapError failed

/-- Whether a write goes through depends on the file only. -/
theorem fst_writeText_congr (alike : Alike t u) (same : t.file? p = u.file? p) {new : String} :
    (t.writeText p new).1 = (u.writeText p new).1 := by
  unfold file? at same
  unfold writeText
  rw [alike.place_eq p] at same ⊢
  cases there : u.place p with
  | error fault => rfl
  | ok place =>
    rw [there] at same
    have data : t.fileAt? place = u.fileAt? place := same
    simp only [data]
    split <;> rfl

/-- A write that goes through leaves the new text in the file. -/
theorem writeText_eq_ok {new : String} (written : t.writeText p new = (.ok (), u)) :
    ∃ place data, t.place p = .ok place ∧ t.fileAt? place = some data ∧
      u = t.setBytes new.toUTF8 place := by
  cases reached : t.place p with
  | error fault => simp [writeText, reached] at written
  | ok place =>
    cases found : t.fileAt? place with
    | none => simp [writeText, reached, found] at written
    | some data =>
      rw [writeText_of_file reached found] at written
      obtain ⟨done, left⟩ := Prod.mk.inj written
      have all : (data.overwrite new.toUTF8).1 = .ok () := by
        cases first : (data.overwrite new.toUTF8).1 with
        | ok => rfl
        | error fault =>
          rw [first] at done
          cases done
      exact ⟨place, data, rfl, found, by rw [← left, File.overwrite_of_ok all]⟩

/-- A write leaves the files that other paths reach. -/
theorem file?_setBytes (bytes : ByteArray) (reached : t.place p = .ok place)
    (file : t.isFile p = true) (apart : t.Apart p q) :
    (t.setBytes bytes place).file? q = t.file? q := by
  unfold file?
  rw [← (alike_setBytes bytes t place).place_eq q]
  cases there : t.place q with
  | error fault => rfl
  | ok other =>
    have differs : other ≠ place := by
      rintro rfl
      exact apart file (reached.trans there.symm)
    exact fileAt?_setBytes_of_ne bytes t differs

end Text

end FileTree

end TerraformPins
