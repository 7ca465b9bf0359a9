import TerraformPins.CommandLine

/-!
# What a command line says

A command line is described by what is given on it: settings with their values, in front of the
command and behind it, and the arguments of the command. It can be written in many ways. A setting
is marked by its name or by its letter, its value is behind an equals sign, directly behind the
letter or the next argument, letters of settings without value share a dash, and settings and
arguments stand in any order. All of them are read as what is given.

## Main definitions

* `Setting.Written` — the arguments that give a setting a value
* `Line`, `Line.Spells` — what is given on a command line, and the command lines on which it is
  given
* `Line.Proper` — what can be given
* `Choices.of`, `Line.invocation` — what is given, as it is read

## Main results

* `Choices.give_of` — one more setting
* `Line.ofArguments_of_spells` — a command line is read as what is given on it
-/

namespace TerraformPins

/-- Settings with their values, in the order in which they are given. The value of a setting that
takes none is empty. -/
abbrev Given := List (Setting × String)

namespace Setting

/-- The settings that can be given once in each place. -/
def isSingle : Setting → Bool
  | files | dryRun | addMissing | verbose | form => true
  | _ => false

/-- The marks of a setting: two dashes and its name, or a dash and its letter. -/
inductive Marks (s : Setting) : List Char → Prop
  | name : Marks s ('-' :: '-' :: s.name.toList)
  | letter {c : Char} (own : s.letter? = some c) : Marks s ['-', c]

/-- The arguments that give a setting a value. -/
inductive Written (s : Setting) : String → List String → Prop
  | assigned {mark : List Char} {value : String} (marks : s.Marks mark)
      (takes : s.takesValue = true) : Written s value [String.ofList (mark ++ '=' :: value.toList)]
  | followed {mark : List Char} {value : String} (marks : s.Marks mark)
      (takes : s.takesValue = true) (plain : Shape.ofArgument value = .plain) :
      Written s value [String.ofList mark, value]
  | joined {c d : Char} {cs : List Char} {value : String} (own : s.letter? = some c)
      (takes : s.takesValue = true) (begins : value.toList = d :: cs) (differs : d ≠ '=') :
      Written s value [String.ofList ('-' :: c :: value.toList)]
  | lone {mark : List Char} (marks : s.Marks mark) (takes : s.takesValue = false) :
      Written s "" [String.ofList mark]

theorem ofName?_name {s : Setting} {place : Option CommandWord} (known : s.isKnown place = true) :
    ofName? place s.name = some s := by
  revert known
  rcases place with _ | (_ | _ | _ | _) <;> cases s <;> decide

theorem ofLetter?_letter {s : Setting} {place : Option CommandWord} {c : Char}
    (known : s.isKnown place = true) (own : s.letter? = some c) : ofLetter? place c = some s := by
  cases s <;> simp only [letter?, reduceCtorEq, Option.some.injEq] at own <;> subst own <;>
    revert known <;> rcases place with _ | (_ | _ | _ | _) <;> decide

theorem name_toList (s : Setting) :
    ∃ c cs, s.name.toList = c :: cs ∧ ∀ d ∈ c :: cs, (d != '=') = true := by
  cases s <;> exact ⟨_, _, rfl, List.all_eq_true.mp (by decide)⟩

end Setting

/-- The values that are given to a setting. -/
def Given.values (given : Given) (s : Setting) : List String :=
  (given.filter (·.1 == s)).map Prod.snd

/-- What can be given in one place: no setting that ends the run, no folder without a name, forms
that there are, and single settings once. -/
structure Given.Proper (given : Given) : Prop where
  goesOn : ∀ g ∈ given, g.1 ≠ .version ∧ g.1 ≠ .help
  folder : ∀ g ∈ given, g.1 = .workFolder → g.2 ≠ ""
  form : ∀ g ∈ given, g.1 = .form → ∃ form, ReportForm.ofName? g.2 = some form
  once : ∀ s : Setting, s.isSingle = true → (given.values s).length ≤ 1

namespace Given

theorem values_append (given more : Given) (s : Setting) :
    (given ++ more : Given).values s = given.values s ++ more.values s := by
  simp [values]

theorem values_concat_self (given : Given) (s : Setting) (value : String) :
    (given ++ [(s, value)] : Given).values s = given.values s ++ [value] := by
  simp [values]

theorem values_concat_of_ne (given : Given) {s other : Setting} (ne : s ≠ other) (value : String) :
    (given ++ [(s, value)] : Given).values other = given.values other := by
  simp [values, ne]

theorem Proper.of_append {given more : Given} (h : (given ++ more : Given).Proper) :
    given.Proper where
  goesOn g member := h.goesOn g (List.mem_append_left _ member)
  folder g member := h.folder g (List.mem_append_left _ member)
  form g member := h.form g (List.mem_append_left _ member)
  once s single := by
    have all := h.once s single
    rw [values_append, List.length_append] at all
    omega

/-- A single setting was not given before. -/
theorem Proper.values_eq_nil {given : Given} {s : Setting} {value : String}
    (h : (given ++ [(s, value)] : Given).Proper) (single : s.isSingle = true) :
    given.values s = [] := by
  have all := h.once s single
  rw [values_concat_self, List.length_append, List.length_singleton] at all
  exact List.eq_nil_of_length_eq_zero (by omega)

end Given

namespace Choices

/-- What is given in one place, as it is read. -/
def of (given : Given) (arguments : List String) : Choices where
  workFolders := given.values .workFolder
  files := (given.values .files).head?
  dryRun := !(given.values .dryRun).isEmpty
  addMissing := !(given.values .addMissing).isEmpty
  verbose := !(given.values .verbose).isEmpty
  form := (given.values .form).head?.bind ReportForm.ofName?
  onlyFrom := given.values .onlyFrom
  keepVersions := given.values .keepVersion
  keepNames := given.values .keepName
  arguments := arguments

/-- One more setting is read as one more setting. -/
theorem give_of {given : Given} {s : Setting} {value : String}
    (proper : (given ++ [(s, value)] : Given).Proper) (arguments : List String) :
    (of given arguments).give s value = .ok (of (given ++ [(s, value)]) arguments) := by
  have goesOn := proper.goesOn (s, value) (by simp)
  have folder := proper.folder (s, value) (by simp)
  have single := proper.values_eq_nil
  cases s with
  | form =>
    obtain ⟨form, known⟩ := proper.form (.form, value) (by simp) rfl
    simp_all [give, of, Given.values_concat_self, Given.values_concat_of_ne, Setting.isSingle]
  | _ =>
    simp_all [give, of, Given.values_concat_self, Given.values_concat_of_ne, Setting.isSingle]

variable {place : Option CommandWord} {c c' : Choices} {s : Setting} {value : String}

/-- A setting marked by its name. -/
theorem readName_name (known : s.isKnown place = true) (tail : List Char)
    (ends : tail = [] ∨ ∃ cs, tail = '=' :: cs) :
    c.readName place (s.name.toList ++ tail) = match (tail : List Char) with
      | [] => if s.takesValue then .ok (c, some s) else (c.give s "").map (·, none)
      | _ :: value =>
        if s.takesValue then (c.give s (String.ofList value)).map (·, none)
        else .error (.usage (.needlessValue s)) := by
  obtain ⟨d, ds, same, noSign⟩ := s.name_toList
  have all : ∀ e ∈ s.name.toList, (e != '=') = true := by
    rwa [same]
  -- No name contains an equals sign, so the first one ends it.
  have cut : (s.name.toList ++ tail).takeWhile (· != '=') = s.name.toList ∧
      (s.name.toList ++ tail).dropWhile (· != '=') = tail := by
    rw [List.takeWhile_append_of_pos all, List.dropWhile_append_of_pos all]
    rcases ends with rfl | ⟨cs, rfl⟩ <;> simp
  rw [readName, cut.1, cut.2, String.ofList_toList, Setting.ofName?_name known]
  rcases ends with rfl | ⟨cs, rfl⟩ <;> rfl

theorem read_of_name {argument : String} {text : List Char}
    (shape : Shape.ofArgument argument = .name text) (more : List String) :
    Choices.read place none c (argument :: more) =
      (c.readName place text).bind fun x => x.1.read place x.2 more := by
  rw [Choices.read.eq_def]
  simp only [shape]

theorem read_of_letters {argument : String} {text : List Char}
    (shape : Shape.ofArgument argument = .letters text) (more : List String) :
    Choices.read place none c (argument :: more) =
      (c.readLetters place text).bind fun x => x.1.read place x.2 more := by
  rw [Choices.read.eq_def]
  simp only [shape]

/-- The value of a setting is the next argument. -/
theorem read_pending (plain : Shape.ofArgument value = .plain) (gives : c.give s value = .ok c')
    (more : List String) :
    Choices.read place (some s) c (value :: more) = Choices.read place none c' more := by
  rw [Choices.read.eq_def]
  simp only [plain, gives]
  rfl

theorem shape_name (s : Setting) (tail : List Char) :
    Shape.ofArgument (String.ofList ('-' :: '-' :: (s.name.toList ++ tail))) =
      .name (s.name.toList ++ tail) := by
  obtain ⟨d, ds, same, -⟩ := s.name_toList
  simp [Shape.ofArgument, same]

theorem shape_letter {letter : Char} (own : s.letter? = some letter) (tail : List Char) :
    Shape.ofArgument (String.ofList ('-' :: letter :: tail)) = .letters (letter :: tail) := by
  have differs : letter ≠ '-' := by
    rintro rfl
    cases s <;> cases own
  rw [Shape.ofArgument, String.toList_ofList]
  split <;> simp_all

/-- The arguments that give a setting a value are read as giving it. -/
theorem read_written {here : List String} (written : s.Written value here)
    (known : s.isKnown place = true) (gives : c.give s value = .ok c') (more : List String) :
    Choices.read place none c (here ++ more) = Choices.read place none c' more := by
  have letters {letter : Char} (own : s.letter? = some letter) :=
    Setting.ofLetter?_letter known own
  -- A mark by name goes through `readName`, and one by letter through `readLetters`. A value that
  -- follows is only read with the next argument, when the setting is pending.
  cases written with
  | @assigned mark _ marks takes =>
    cases marks with
    | name =>
      have given := c.readName_name known ('=' :: value.toList) (.inr ⟨_, rfl⟩)
      simp only [takes, if_true, String.ofList_toList, gives] at given
      exact (read_of_name (shape_name s _) more).trans (by rw [given]; rfl)
    | @letter letter own =>
      have given : c.readLetters place (letter :: '=' :: value.toList) = .ok (c', none) := by
        simp [readLetters, letters own, takes, gives, Except.map]
      exact (read_of_letters (shape_letter own ('=' :: value.toList)) more).trans
        (by rw [given]; rfl)
  | @followed mark _ marks takes plain =>
    refine Eq.trans ?_ (read_pending plain gives more)
    cases marks with
    | name =>
      have given := c.readName_name known [] (.inl rfl)
      simp only [takes, if_true] at given
      have shape := shape_name s []
      rw [List.append_nil] at given shape
      exact (read_of_name shape _).trans (by rw [given]; rfl)
    | @letter letter own =>
      have given : c.readLetters place [letter] = .ok (c, some s) := by
        simp [readLetters, letters own, takes]
      exact (read_of_letters (shape_letter own _) _).trans (by rw [given]; rfl)
  | @joined letter d cs _ own takes begins differs =>
    have given : c.readLetters place (letter :: value.toList) = .ok (c', none) := by
      have whole : String.ofList (d :: cs) = value := by
        rw [← begins, String.ofList_toList]
      simp [readLetters, letters own, takes, begins, differs, whole, gives, Except.map]
    exact (read_of_letters (shape_letter own _) more).trans (by rw [given]; rfl)
  | @lone mark marks takes =>
    cases marks with
    | name =>
      have given := c.readName_name known [] (.inl rfl)
      simp only [takes, gives] at given
      have shape := shape_name s []
      rw [List.append_nil] at given shape
      exact (read_of_name shape _).trans (by rw [given]; rfl)
    | @letter letter own =>
      have given : c.readLetters place [letter] = .ok (c', none) := by
        simp [readLetters, letters own, takes, gives, Except.bind]
      exact (read_of_letters (shape_letter own _) _).trans (by rw [given]; rfl)

/-- Behind a setting without value, one dash does for more letters. -/
theorem read_flag {letter d : Char} {cs : List Char} (known : s.isKnown place = true)
    (own : s.letter? = some letter) (lone : s.takesValue = false) (next : d ≠ '-')
    (gives : c.give s "" = .ok c') (more : List String) :
    Choices.read place none c (String.ofList ('-' :: letter :: d :: cs) :: more) =
      Choices.read place none c' (String.ofList ('-' :: d :: cs) :: more) := by
  have later : Shape.ofArgument (String.ofList ('-' :: d :: cs)) = .letters (d :: cs) := by
    rw [Shape.ofArgument, String.toList_ofList]
    split <;> simp_all
  have first : c.readLetters place (letter :: d :: cs) = c'.readLetters place (d :: cs) := by
    rw [readLetters]
    simp [Setting.ofLetter?_letter known own, lone, gives, Except.bind]
  rw [read_of_letters (shape_letter own _), read_of_letters later, first]

end Choices

/-- The arguments in front of a command that give some settings. Letters of settings without value
can share a dash with the letter behind them. -/
inductive Given.SpelledInFront : Given → List String → Prop
  | nil : SpelledInFront [] []
  | setting {s : Setting} {value : String} {given : Given} {here more : List String}
      (known : s.isKnown none = true) (written : s.Written value here)
      (rest : SpelledInFront given more) : SpelledInFront ((s, value) :: given) (here ++ more)
  | flag {s : Setting} {letter d : Char} {cs : List Char} {given : Given} {more : List String}
      (known : s.isKnown none = true) (own : s.letter? = some letter) (lone : s.takesValue = false)
      (next : d ≠ '-') (rest : SpelledInFront given (String.ofList ('-' :: d :: cs) :: more)) :
      SpelledInFront ((s, "") :: given) (String.ofList ('-' :: letter :: d :: cs) :: more)

/-- The arguments behind a command that give some settings and some arguments of the command. An
argument that looks like a setting stands behind two dashes. -/
inductive Given.SpelledBehind (word : CommandWord) : Given → List String → List String → Prop
  | nil : SpelledBehind word [] [] []
  | setting {s : Setting} {value : String} {given : Given} {arguments here more : List String}
      (known : s.isKnown (some word) = true) (written : s.Written value here)
      (rest : SpelledBehind word given arguments more) :
      SpelledBehind word ((s, value) :: given) arguments (here ++ more)
  | flag {s : Setting} {letter d : Char} {cs : List Char} {given : Given}
      {arguments more : List String} (known : s.isKnown (some word) = true)
      (own : s.letter? = some letter) (lone : s.takesValue = false) (next : d ≠ '-')
      (rest : SpelledBehind word given arguments (String.ofList ('-' :: d :: cs) :: more)) :
      SpelledBehind word ((s, "") :: given) arguments
        (String.ofList ('-' :: letter :: d :: cs) :: more)
  | argument {argument : String} {given : Given} {arguments more : List String}
      (plain : Shape.ofArgument argument = .plain)
      (rest : SpelledBehind word given arguments more) :
      SpelledBehind word given (argument :: arguments) (argument :: more)
  | dashes (arguments : List String) : SpelledBehind word [] arguments ("--" :: arguments)

namespace Choices

/-- What is given in front of a command is read up to the command. -/
theorem read_inFront {given : Given} {here : List String} (spelled : given.SpelledInFront here)
    {before : Given} (proper : (before ++ given : Given).Proper) (more : List String) :
    Choices.read none none (of before []) (here ++ more) =
      Choices.read none none (of (before ++ given) []) more := by
  -- By induction on the spelling. What was read so far is `before`, which grows with every setting.
  induction spelled generalizing before with
  | nil => rw [List.append_nil, List.nil_append]
  | @setting s value given here rest known written _ ih =>
    have split : before ++ (s, value) :: given = before ++ [(s, value)] ++ given := by simp
    rw [split] at proper
    rw [List.append_assoc, read_written written known (give_of proper.of_append []),
      ih proper, split]
  | @flag s letter d cs given rest known own lone next _ ih =>
    have split : before ++ (s, "") :: given = before ++ [(s, "")] ++ given := by simp
    rw [split] at proper
    rw [List.cons_append, read_flag known own lone next (give_of proper.of_append []), split,
      ← ih proper, List.cons_append]

/-- What is given behind a command is read up to the end. -/
theorem read_behind {word : CommandWord} {given : Given} {arguments here : List String}
    (spelled : given.SpelledBehind word arguments here) {before : Given} {had : List String}
    (proper : (before ++ given : Given).Proper) :
    Choices.read (some word) none (of before had) here =
      .ok (of (before ++ given) (had ++ arguments), none) := by
  -- As in front of the command, with the arguments read so far in `had`.
  induction spelled generalizing before had with
  | nil =>
    rw [List.append_nil, List.append_nil]
    rfl
  | @setting s value given arguments here rest known written _ ih =>
    have split : before ++ (s, value) :: given = before ++ [(s, value)] ++ given := by simp
    rw [split] at proper
    rw [read_written written known (give_of proper.of_append had), ih proper, split]
  | @flag s letter d cs given arguments rest known own lone next _ ih =>
    have split : before ++ (s, "") :: given = before ++ [(s, "")] ++ given := by simp
    rw [split] at proper
    rw [read_flag known own lone next (give_of proper.of_append had), ih proper, split]
  | @argument argument given arguments rest plain _ ih =>
    rw [Choices.read.eq_def]
    simp only [plain]
    exact (@ih before (had ++ [argument]) proper).trans (by simp)
  | dashes arguments =>
    rw [Choices.read.eq_def, List.append_nil]
    rfl

end Choices

/-- What is given on a command line. -/
structure Line where
  /-- The settings in front of the command. -/
  front : Given := []
  word : CommandWord
  /-- The settings behind the command. -/
  behind : Given := []
  /-- The arguments of the command. -/
  arguments : List String

namespace Line

/-- The command lines on which this is given. -/
inductive Spells (l : Line) : List String → Prop
  | mk {front behind : List String} {name : String} (isFront : l.front.SpelledInFront front)
      (named : CommandWord.ofName? name = some l.word)
      (isBehind : l.behind.SpelledBehind l.word l.arguments behind) :
      Spells l (front ++ name :: behind)

/-- Whether it can be given. -/
structure Proper (l : Line) : Prop where
  front : l.front.Proper
  behind : l.behind.Proper

/-- The values of a setting. The place behind the command prevails. -/
def values (l : Line) (s : Setting) : List String :=
  if (l.behind.values s).isEmpty then l.front.values s else l.behind.values s

/-- Whether a setting is given. -/
def has (l : Line) (s : Setting) : Bool :=
  !(l.values s).isEmpty

/-- What a command line with the given command asks for. -/
def invocation (l : Line) (command : Command) : Invocation where
  command := command
  workFolders := l.values .workFolder
  files := (l.values .files).head?
  dryRun := l.has .dryRun
  addMissing := l.has .addMissing
  verbose := l.has .verbose
  form := ((l.values .form).head?.bind ReportForm.ofName?).getD .text

theorem plain_of_ofName? {name : String} {word : CommandWord}
    (named : CommandWord.ofName? name = some word) : Shape.ofArgument name = .plain := by
  unfold CommandWord.ofName? at named
  split at named <;> first | rfl | cases named

/-- What is given in front of the command and behind it is joined. -/
theorem ofChoices_of {l : Line} (proper : l.Proper) (command : Command) :
    Invocation.ofChoices command (.of l.front []) (.of l.behind l.arguments) =
      l.invocation command := by
  have flag (s : Setting) : (!(l.front.values s).isEmpty || !(l.behind.values s).isEmpty) =
      l.has s := by
    unfold has values
    cases l.behind.values s <;> simp
  have files : ((l.behind.values .files).head?.orElse fun _ => (l.front.values .files).head?) =
      (l.values .files).head? := by
    unfold values
    cases l.behind.values .files <;> simp
  have form : (((l.behind.values .form).head?.bind ReportForm.ofName?).orElse fun _ =>
      (l.front.values .form).head?.bind ReportForm.ofName?) =
        (l.values .form).head?.bind ReportForm.ofName? := by
    unfold values
    cases given : l.behind.values .form with
    | nil => simp
    | cons value more =>
      -- A form that is given behind the command is known, so it prevails.
      have member : value ∈ l.behind.values .form := given ▸ List.mem_cons_self
      obtain ⟨g, inside, rfl⟩ := List.mem_map.mp member
      obtain ⟨inside, isForm⟩ := List.mem_filter.mp inside
      obtain ⟨form, known⟩ := proper.behind.form g inside (eq_of_beq isForm)
      simp [known]
  simp only [Invocation.ofChoices, Choices.of, flag, files, form]
  rfl

/-- A command line is read as what is given on it. -/
theorem ofArguments_of_spells {l : Line} {arguments : List String} (spells : l.Spells arguments)
    (proper : l.Proper) {command : Command}
    (commanded : Command.ofChoices l.word (.of l.behind l.arguments) = .ok command) :
    Invocation.ofArguments arguments = .ok (l.invocation command) := by
  obtain @⟨front, behind, name, isFront, named, isBehind⟩ := spells
  have first : Choices.read none none {} (front ++ name :: behind) =
      .ok (.of l.front [], some (l.word, behind)) := by
    have nothing : ([] ++ l.front : Given).Proper := proper.front
    refine (Choices.read_inFront isFront nothing (name :: behind)).trans ?_
    rw [Choices.read.eq_def]
    simp only [plain_of_ofName? named, named]
    rfl
  have second : Choices.read (some l.word) none {} behind =
      .ok (.of l.behind l.arguments, none) := by
    have nothing : ([] ++ l.behind : Given).Proper := proper.behind
    exact Choices.read_behind isBehind nothing
  rw [← ofChoices_of proper]
  simp only [Invocation.ofArguments, first, second, commanded, bind, Except.bind, pure, Except.pure]

end Line

end TerraformPins
