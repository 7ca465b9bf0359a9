import TerraformPins.Upgrade
import TerraformPins.Wildcard

/-!
# Verdicts

An upgrade *addresses* a pin if the kinds agree and the key is the pin's own key or the source of
the provider. On a pin that it addresses, the verdict says whether the version is changed; of
several reasons to leave it alone the first in a fixed order counts.

## Main definitions

* `Upgrade.addresses`: whether a pin is meant by an upgrade
* `Verdict`: admitted, or the reason for leaving a pin alone
* `Upgrade.verdict`: the verdict on a pin
-/

namespace TerraformPins

/-- What an upgrade does with a pin that it addresses. -/
inductive Verdict where
  | admitted
  | localSource
  | keptName
  | keptVersion
  | notListed
  | noVersion
  deriving DecidableEq, Repr, Inhabited

namespace Verdict

/-- The word for a verdict in structured reports. -/
def word : Verdict → String
  | admitted => "admit"
  | localSource => "skip_local_reference"
  | keptName => "skip_ignored_name"
  | keptVersion => "skip_ignored_version"
  | notListed => "skip_not_in_from_set"
  | noVersion => "skip_no_version_attribute"

/-- The phrase for a verdict in text reports. -/
def phrase : Verdict → String
  | admitted => "admitted"
  | localSource => "local reference has no version"
  | keptName => "name is ignored"
  | keptVersion => "version is ignored"
  | notListed => "version not in --from"
  | noVersion => "no version attribute"

end Verdict

/-- Whether a module source points into the file system. -/
def isLocalSource (source : String) : Bool :=
  let cs := source.toList
  ['.', '/'].isPrefixOf cs || ['.', '.', '/'].isPrefixOf cs || ['/'].isPrefixOf cs

namespace Upgrade

/-- Whether a pin is meant by an upgrade: the kinds agree, and the key, if there is one, is the
pin's key or the source of the provider. -/
def addresses (u : Upgrade) (p : Pin) : Bool :=
  p.kind == u.kind &&
    match u.key with
    | none => true
    | some key => p.key == key || p.providerSource == some key

/-- The verdict on a pin, with `addMissing` saying whether a pin without version gets one. Local
modules have no version; a pin without a name cannot be named as an exception; the versions to keep
are looked at before those to start from. -/
def verdict (u : Upgrade) (addMissing : Bool) (p : Pin) : Verdict :=
  if p.kind = .module ∧ isLocalSource p.key then .localSource
  else if p.name ≠ "" ∧ Wildcard.acceptsAny u.keepNames p.name then .keptName
  else
    match p.version with
    | none => if addMissing then .admitted else .noVersion
    | some held =>
      if held ∈ u.keepVersions then .keptVersion
      else if u.onlyFrom ≠ [] ∧ held ∉ u.onlyFrom then .notListed
      else .admitted

end Upgrade

end TerraformPins
