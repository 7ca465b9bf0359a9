import TerraformPins.Upgrade
import TerraformPins.Text

/-!
# The command line

A command line names a command with its arguments, and settings in any order among them. A setting
is written `--name` or, if it has one, by a letter behind a dash; letters of settings without value
can share a dash. A value follows as the next argument, behind `=`, or directly behind the letter.
An argument that begins with a dash is never taken for a value in this way, only behind `=` or
behind `--`, which ends the settings.

Settings in front of the command and behind it are read separately. A setting that can be given once
can be given once in each place, and the place behind the command prevails.

## Main definitions

* `Invocation`: what a command line asks for
* `EarlyExit`: why a command line asks for no run
* `Invocation.ofArguments`: reading a command line
-/

namespace TerraformPins

/-- The forms of a report. -/
inductive ReportForm where
  | text
  | json
  | yaml
  deriving DecidableEq, Repr, Inhabited

namespace ReportForm

/-- The form with a name. -/
def ofName? : String → Option ReportForm
  | "text" => some text
  | "json" => some json
  | "yaml" => some yaml
  | _ => none

end ReportForm

/-- The commands. -/
inductive CommandWord where
  | module
  | provider
  | terraform
  | batch
  deriving DecidableEq, Repr, Inhabited

namespace CommandWord

/-- The command with a name. -/
def ofName? : String → Option CommandWord
  | "module" => some module
  | "provider" => some provider
  | "terraform" => some terraform
  | "tf" => some terraform
  | "batch" => some batch
  | _ => none

end CommandWord

/-- The settings. -/
inductive Setting where
  | workFolder
  | files
  | dryRun
  | addMissing
  | verbose
  | form
  | version
  | help
  | onlyFrom
  | keepVersion
  | keepName
  deriving DecidableEq, Repr, Inhabited

namespace Setting

/-- All settings. -/
def all : List Setting :=
  [workFolder, files, dryRun, addMissing, verbose, form, version, help, onlyFrom, keepVersion,
    keepName]

/-- The name of a setting. -/
def name : Setting → String
  | workFolder => "directory"
  | files => "files"
  | dryRun => "dry-run"
  | addMissing => "force-add"
  | verbose => "verbose"
  | form => "output-format"
  | version => "version"
  | help => "help"
  | onlyFrom => "from"
  | keepVersion => "ignore-version"
  | keepName => "ignore-name"

/-- The letter of a setting. -/
def letter? : Setting → Option Char
  | workFolder => some 'C'
  | files => some 'f'
  | dryRun => some 'n'
  | verbose => some 'v'
  | form => some 'F'
  | version => some 'V'
  | help => some 'h'
  | _ => none

/-- Whether a setting has a value. -/
def takesValue : Setting → Bool
  | workFolder | files | form | onlyFrom | keepVersion | keepName => true
  | _ => false

/-- Whether a setting can be given in front of the command (`none`) or behind a command. -/
def isKnown : Setting → Option CommandWord → Bool
  | version, place => place.isNone
  | onlyFrom, place | keepVersion, place => place.isSome && place != some .batch
  | keepName, place => place == some .module || place == some .provider
  | _, _ => true

/-- The setting with a name. -/
def ofName? (place : Option CommandWord) (text : String) : Option Setting :=
  all.find? fun s => s.isKnown place && s.name == text

/-- The setting with a letter. -/
def ofLetter? (place : Option CommandWord) (c : Char) : Option Setting :=
  all.find? fun s => s.isKnown place && s.letter? == some c

end Setting

/-- Why a command line is not understood. -/
inductive UsageError where
  | noCommand
  | unknownCommand (word : String)
  | unknownSetting (text : String)
  | repeated (setting : Setting)
  | missingValue (setting : Setting)
  | needlessValue (setting : Setting)
  | invalidValue (setting : Setting) (value : String)
  | missingArgument
  | needlessArgument (word : String)
  | emptyArgument
  deriving DecidableEq, Repr, Inhabited

namespace UsageError

/-- The message for an error. -/
def message : UsageError → String
  | noCommand => "error: a command is required: module, provider, terraform or batch"
  | unknownCommand word => "error: unknown command '" ++ word ++ "'"
  | unknownSetting text => "error: unknown option '" ++ text ++ "'"
  | repeated s => "error: --" ++ s.name ++ " cannot be given more than once"
  | missingValue s => "error: --" ++ s.name ++ " needs a value"
  | needlessValue s => "error: --" ++ s.name ++ " takes no value"
  | invalidValue s value => "error: invalid value '" ++ value ++ "' for --" ++ s.name
  | missingArgument => "error: an argument is missing"
  | needlessArgument word => "error: unexpected argument '" ++ word ++ "'"
  | emptyArgument => "error: a path cannot be empty"

end UsageError

/-- Why a command line asks for no run. -/
inductive EarlyExit where
  | usage (error : UsageError)
  | version
  | help
  deriving DecidableEq, Repr, Inhabited

/-- The settings and arguments given in one place. -/
structure Choices where
  workFolders : List String := []
  files : Option String := none
  dryRun : Bool := false
  addMissing : Bool := false
  verbose : Bool := false
  form : Option ReportForm := none
  onlyFrom : List String := []
  keepVersions : List String := []
  keepNames : List String := []
  arguments : List String := []
  deriving DecidableEq, Repr, Inhabited

/-- The result of reading a part of a command line. -/
abbrev Reading (α : Type) := Except EarlyExit α

namespace Choices

/-- Adds a setting with its value; for a setting without value the value is not looked at. -/
def give (c : Choices) (s : Setting) (value : String) : Reading Choices :=
  let once (isGiven : Bool) (c : Choices) : Reading Choices :=
    if isGiven then .error (.usage (.repeated s)) else .ok c
  match s with
  | .workFolder =>
    if value.isEmpty then .error (.usage .emptyArgument)
    else .ok { c with workFolders := c.workFolders ++ [value] }
  | .files => once c.files.isSome { c with files := some value }
  | .dryRun => once c.dryRun { c with dryRun := true }
  | .addMissing => once c.addMissing { c with addMissing := true }
  | .verbose => once c.verbose { c with verbose := true }
  | .form =>
    match ReportForm.ofName? value with
    | some form => once c.form.isSome { c with form := some form }
    | none => .error (.usage (.invalidValue s value))
  | .version => .error .version
  | .help => .error .help
  | .onlyFrom => .ok { c with onlyFrom := c.onlyFrom ++ [value] }
  | .keepVersion => .ok { c with keepVersions := c.keepVersions ++ [value] }
  | .keepName => .ok { c with keepNames := c.keepNames ++ [value] }

/-- Reads the letters behind a dash. A setting that still needs its value is returned. -/
def readLetters (place : Option CommandWord) (c : Choices) :
    List Char → Reading (Choices × Option Setting)
  | [] => .ok (c, none)
  | letter :: more =>
    match Setting.ofLetter? place letter with
    | none => .error (.usage (.unknownSetting ("-" ++ letter.toString)))
    | some s =>
      if s.takesValue then
        match more with
        | [] => .ok (c, some s)
        | '=' :: value => (c.give s (String.ofList value)).map (·, none)
        | value => (c.give s (String.ofList value)).map (·, none)
      else (c.give s "").bind fun c => c.readLetters place more

/-- Reads the text behind two dashes. A setting that still needs its value is returned. -/
def readName (place : Option CommandWord) (c : Choices) (text : List Char) :
    Reading (Choices × Option Setting) :=
  let name := String.ofList (text.takeWhile (· != '='))
  match Setting.ofName? place name, text.dropWhile (· != '=') with
  | none, _ => .error (.usage (.unknownSetting ("--" ++ name)))
  | some s, [] => if s.takesValue then .ok (c, some s) else (c.give s "").map (·, none)
  | some s, _ :: value =>
    if s.takesValue then (c.give s (String.ofList value)).map (·, none)
    else .error (.usage (.needlessValue s))

end Choices

/-- What an argument looks like. -/
inductive Shape where
  /-- `--` by itself. -/
  | dashes
  | name (text : List Char)
  | letters (text : List Char)
  | plain
  deriving DecidableEq, Repr, Inhabited

namespace Shape

/-- What an argument looks like. A dash by itself is plain. -/
def ofArgument (argument : String) : Shape :=
  match argument.toList with
  | ['-', '-'] => dashes
  | '-' :: '-' :: text => name text
  | '-' :: c :: text => letters (c :: text)
  | _ => plain

end Shape

/-- Reads the settings and arguments in one place: in front of the command up to the command, which
is returned with what is behind it, or behind the command up to the end. `pending` is a setting
whose value comes next. -/
def Choices.read (place : Option CommandWord) (pending : Option Setting) (c : Choices) :
    List String → Reading (Choices × Option (CommandWord × List String))
  | [] =>
    match pending with
    | some s => .error (.usage (.missingValue s))
    | none => .ok (c, none)
  | argument :: more =>
    match pending, Shape.ofArgument argument with
    | some s, .plain => (c.give s argument).bind fun c => c.read place none more
    | some s, _ => .error (.usage (.missingValue s))
    | none, .name text => (c.readName place text).bind fun (c, s) => c.read place s more
    | none, .letters text => (c.readLetters place text).bind fun (c, s) => c.read place s more
    | none, .dashes =>
      match place, more with
      | none, word :: _ => .error (.usage (.unknownCommand word))
      | _, _ => .ok ({ c with arguments := c.arguments ++ more }, none)
    | none, .plain =>
      match place with
      | some _ => Choices.read place none { c with arguments := c.arguments ++ [argument] } more
      | none =>
        match CommandWord.ofName? argument with
        | some word => .ok (c, some (word, more))
        | none =>
          .error (if argument = "help" then .help else .usage (.unknownCommand argument))

/-- What a run does: it carries out an upgrade or those of a batch file. -/
inductive Command where
  | upgrade (u : Upgrade)
  | batch (path : String)
  deriving DecidableEq, Repr, Inhabited

namespace Command

/-- The command for a word and what is given behind it. -/
def ofChoices (word : CommandWord) (c : Choices) : Reading Command :=
  let upgrade (kind : PinKind) (key : Option String) (target : String) : Command :=
    .upgrade ⟨kind, key, target, c.onlyFrom, c.keepVersions, c.keepNames⟩
  match word, c.arguments with
  | .module, [source, target] => .ok (upgrade .module (some source) target)
  | .provider, [name, target] => .ok (upgrade .provider (some name) target)
  | .terraform, [target] => .ok (upgrade .terraform none target)
  | .batch, [path] =>
    if path.isEmpty then .error (.usage .emptyArgument) else .ok (.batch path)
  | .module, _ :: _ :: argument :: _ | .provider, _ :: _ :: argument :: _
  | .terraform, _ :: argument :: _ | .batch, _ :: argument :: _ =>
    .error (.usage (.needlessArgument argument))
  | _, _ => .error (.usage .missingArgument)

end Command

/-- What a command line asks for. -/
structure Invocation where
  command : Command
  /-- The folders to go to, one after another, before anything else. -/
  workFolders : List String := []
  /-- The pattern of the files to change. -/
  files : Option String := none
  dryRun : Bool := false
  addMissing : Bool := false
  verbose : Bool := false
  form : ReportForm := .text
  deriving DecidableEq, Repr, Inhabited

namespace Invocation

/-- Joins what is given in front of the command and behind it. -/
def ofChoices (command : Command) (front behind : Choices) : Invocation where
  command := command
  workFolders := if behind.workFolders.isEmpty then front.workFolders else behind.workFolders
  files := behind.files.orElse fun _ => front.files
  dryRun := front.dryRun || behind.dryRun
  addMissing := front.addMissing || behind.addMissing
  verbose := front.verbose || behind.verbose
  form := (behind.form.orElse fun _ => front.form).getD .text

/-- Reads a command line. -/
def ofArguments (arguments : List String) : Reading Invocation := do
  match ← Choices.read none none {} arguments with
  | (_, none) => .error (.usage .noCommand)
  | (front, some (word, more)) =>
    let (behind, _) ← Choices.read (some word) none {} more
    pure (ofChoices (← Command.ofChoices word behind) front behind)

end Invocation

end TerraformPins
