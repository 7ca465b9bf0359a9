import TerraformPins.Pin

/-!
# Upgrades

An upgrade says which pins shall hold which version. Versions are opaque: two versions are the same
if their texts are, so `3.14` and `3.14.0` differ.

## Main definitions

* `Upgrade`: a wanted version, the pins it is meant for and the exceptions
-/

namespace TerraformPins

/-- A wanted change of version. -/
structure Upgrade where
  kind : PinKind
  /-- The source of the module or the name or source of the provider; `none` means every pin of the
  kind. -/
  key : Option String
  /-- The version to write. -/
  target : String
  /-- Only pins at one of these versions are changed; the empty list admits every version. -/
  onlyFrom : List String := []
  /-- Pins at one of these versions stay. -/
  keepVersions : List String := []
  /-- Pins whose name is described by one of these wildcard patterns stay. -/
  keepNames : List String := []
  deriving DecidableEq, Repr, Inhabited

end TerraformPins
