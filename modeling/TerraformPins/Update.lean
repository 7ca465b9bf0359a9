import TerraformPins.Document
import TerraformPins.Verdict

/-!
# Updating a document

Upgrades are applied one after another, each in one walk over the whole document, so a later
upgrade sees what an earlier one has written. Every addressed pin leaves a record: a change, or a
refusal with its reason. A pin that holds the wanted version already leaves none.

## Main definitions

* `Change`, `Refusal`: the two kinds of records
* `Outcome`: the records of a document
* `Document.update`: applying upgrades
-/

namespace TerraformPins

/-- A version that was written. -/
structure Change where
  kind : PinKind
  name : String
  /-- The version before, or `none` if there was none. -/
  before : Option String
  after : String
  deriving DecidableEq, Repr, Inhabited

namespace Change

/-- The line for a change in text reports. -/
def line (c : Change) : String :=
  let subject := match c.kind with
    | .terraform => "terraform required_version"
    | kind => kind.word ++ " " ++ c.name
  subject ++ ": " ++ c.before.getD "(none)" ++ " -> " ++ c.after

end Change

/-- An addressed pin that was left alone. -/
structure Refusal where
  kind : PinKind
  name : String
  reason : Verdict
  version : Option String
  deriving DecidableEq, Repr, Inhabited

namespace Refusal

/-- The line for a refusal in text reports. -/
def line (r : Refusal) : String :=
  r.kind.word ++ " " ++ r.name ++ ": " ++ r.reason.phrase ++
    match r.version with
    | some version => " (" ++ version ++ ")"
    | none => ""

end Refusal

/-- The records of an update, in the order of the upgrades and then of the text. -/
structure Outcome where
  /-- Whether a version was written. -/
  changed : Bool := false
  changes : List Change := []
  refusals : List Refusal := []
  deriving DecidableEq, Repr, Inhabited

namespace Outcome

/-- Adds a change to the records. -/
def addChange (o : Outcome) (c : Change) : Outcome :=
  { o with changed := true, changes := o.changes ++ [c] }

/-- Adds a refusal to the records. -/
def addRefusal (o : Outcome) (r : Refusal) : Outcome :=
  { o with refusals := o.refusals ++ [r] }

end Outcome

namespace Upgrade

/-- What an upgrade does at a site. -/
def visit (u : Upgrade) (addMissing : Bool) : Document.Visit Outcome := fun outcome site =>
  let pin := site.pin
  if u.addresses pin then
    match u.verdict addMissing pin with
    | .admitted =>
      if site.changes u.target then
        (outcome.addChange ⟨pin.kind, pin.name, pin.version, u.target⟩, some u.target)
      else (outcome, none)
    | reason => (outcome.addRefusal ⟨pin.kind, pin.name, reason, pin.version⟩, none)
  else (outcome, none)

end Upgrade

namespace Document

/-- Applies one upgrade and adds to the records. -/
def applyUpgrade (addMissing : Bool) (state : Outcome × Document) (u : Upgrade) :
    Outcome × Document :=
  state.2.walk (u.visit addMissing) state.1

/-- Applies upgrades one after another; `addMissing` says whether pins without version get one. -/
def update (d : Document) (upgrades : List Upgrade) (addMissing : Bool) : Outcome × Document :=
  upgrades.foldl (applyUpgrade addMissing) ({}, d)

end Document

end TerraformPins
