import TerraformPins.Upgrade
import TerraformPins.Yaml.Value

/-!
# Batches of upgrades

A batch is a YAML document that lists upgrades of modules, providers and the `terraform` version,
and may name the files to change. It is read in two steps: the *draft* holds the fields as they are
written, and checking the draft gives the batch or the first fault. A batch is taken as a whole or
not at all.

## Main definitions

* `BatchDraft`: the fields of a batch as written
* `BatchError`: why a batch is refused
* `BatchDraft.check`: a batch from its draft
* `Batch.ofText`: a batch from its text
-/

namespace TerraformPins

/-- The sections of a batch that list upgrades. -/
inductive BatchSection where
  | modules
  | providers
  | terraform
  deriving DecidableEq, Repr, Inhabited

namespace BatchSection

/-- The name of a section. -/
def word : BatchSection → String
  | modules => "modules"
  | providers => "providers"
  | terraform => "terraform"

/-- The kind of the upgrades in a section. -/
def kind : BatchSection → PinKind
  | modules => .module
  | providers => .provider
  | terraform => .terraform

/-- The field that holds the key of an upgrade. -/
def keyField? : BatchSection → Option String
  | modules => some "source"
  | providers => some "name"
  | terraform => none

/-- The fields of an entry. Upgrades of the `terraform` version have no names to keep. -/
def fields (s : BatchSection) : List String :=
  s.keyField?.toList ++ ["version", "from", "ignore_versions"] ++
    if s = .terraform then [] else ["ignore_names"]

end BatchSection

/-- An entry of a batch as written. -/
structure DraftEntry where
  key : Option String := none
  version : Option String := none
  onlyFrom : List String := []
  keepVersions : List String := []
  keepNames : List String := []
  deriving DecidableEq, Repr, Inhabited

/-- A batch as written. -/
structure BatchDraft where
  files : Option String := none
  addMissing : Bool := false
  modules : List DraftEntry := []
  providers : List DraftEntry := []
  terraform : List DraftEntry := []
  deriving DecidableEq, Repr, Inhabited

/-- A batch that can be carried out. -/
structure Batch where
  /-- The pattern of the files to change. -/
  files : Option String
  addMissing : Bool
  upgrades : List Upgrade
  deriving DecidableEq, Repr, Inhabited

/-- Why a batch is refused. -/
inductive BatchError where
  /-- The text is not YAML, or its fields are not those of a batch. -/
  | malformed
  | missingField (part : BatchSection) (index : Nat) (field : String)
  | noUpgrades
  deriving DecidableEq, Repr, Inhabited

namespace BatchError

/-- The message for an error. -/
def message : BatchError → String
  | malformed => "invalid batch file"
  | missingField part index field =>
    part.word ++ "[" ++ toString index ++ "]: missing required field \x60" ++ field ++ "\x60"
  | noUpgrades => "batch file contains no updates"

end BatchError

/-! ### Checking -/

/-- The text of a field without the blanks at its ends, unless it is missing or blank. -/
def filled? (field : Option String) : Option String :=
  (field.map trimmed).filter (· ≠ "")

/-- The items of a field without the blanks at their ends; blank items are left out. -/
def filledItems (items : List String) : List String :=
  (items.map trimmed).filter (· ≠ "")

namespace DraftEntry

/-- The upgrade that an entry asks for, or the first required field that is missing. -/
def check (part : BatchSection) (index : Nat) (e : DraftEntry) : Except BatchError Upgrade := do
  let required (field : String) (text : Option String) : Except BatchError String :=
    match filled? text with
    | some text => .ok text
    | none => .error (.missingField part index field)
  let key ← match part.keyField? with
    | some field => some <$> required field e.key
    | none => pure none
  let version ← required "version" e.version
  pure
    { kind := part.kind
      key := key
      target := version
      onlyFrom := filledItems e.onlyFrom
      keepVersions := filledItems e.keepVersions
      keepNames := filledItems e.keepNames }

/-- The upgrades of a section. -/
def checkAll (part : BatchSection) (entries : List DraftEntry) :
    Except BatchError (List Upgrade) :=
  entries.zipIdx.mapM fun (e, index) => e.check part index

end DraftEntry

namespace BatchDraft

/-- The batch of a draft, or the first fault in the order of the sections. -/
def check (d : BatchDraft) : Except BatchError Batch := do
  let modules ← DraftEntry.checkAll .modules d.modules
  let providers ← DraftEntry.checkAll .providers d.providers
  let terraform ← DraftEntry.checkAll .terraform d.terraform
  let upgrades := modules ++ providers ++ terraform
  if upgrades.isEmpty then .error .noUpgrades
  else pure ⟨filled? d.files, d.addMissing, upgrades⟩

end BatchDraft

/-! ### Reading -/

namespace DraftEntry

open Yaml

/-- The entry that a node says. -/
def ofNode? (part : BatchSection) (node : Node) : Option DraftEntry := do
  let fields ← node.fields? part.fields
  let key ← match part.keyField? with
    | some name => field? fields name Node.optionalText? none
    | none => some none
  let version ← field? fields "version" Node.optionalText? none
  let onlyFrom ← field? fields "from" Node.texts? []
  let keepVersions ← field? fields "ignore_versions" Node.texts? []
  let keepNames ← field? fields "ignore_names" Node.texts? []
  pure ⟨key, version, onlyFrom, keepVersions, keepNames⟩

/-- The entries of a section that is a list. -/
def listOfNode? (part : BatchSection) (node : Node) : Option (List DraftEntry) := do
  (← node.items?).mapM (ofNode? part)

/-- The entries of a section that is one entry or a list. -/
def someOfNode? (part : BatchSection) : Node → Option (List DraftEntry)
  | .scalar tag style text =>
    match Node.valueText? tag style text with
    | some none => some []
    | _ => none
  | .list tag items => if Node.isLocalTag tag then none else items.mapM (ofNode? part)
  | .mapping tag pairs =>
    if Node.isLocalTag tag then none else (ofNode? part (.mapping tag pairs)).map ([·])

end DraftEntry

namespace BatchDraft

open Yaml

/-- The draft that a node says. -/
def ofNode? (node : Node) : Option BatchDraft := do
  let fields ← node.fields? ["files", "force_add", "modules", "providers", "terraform"]
  let files ← field? fields "files" Node.optionalText? none
  let addMissing ← field? fields "force_add" Node.flag? false
  let modules ← field? fields "modules" (DraftEntry.listOfNode? .modules) []
  let providers ← field? fields "providers" (DraftEntry.listOfNode? .providers) []
  let terraform ← field? fields "terraform" (DraftEntry.someOfNode? .terraform) []
  pure ⟨files, addMissing, modules, providers, terraform⟩

/-- The draft that a text says. -/
def ofText? (text : String) : Option BatchDraft :=
  (Node.ofText? text).bind ofNode?

end BatchDraft

/-- The batch that a text says. -/
def Batch.ofText (text : String) : Except BatchError Batch :=
  match BatchDraft.ofText? text with
  | some draft => draft.check
  | none => .error .malformed

end TerraformPins
