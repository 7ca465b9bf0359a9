/-!
# Version pins

A pin is a place in a Terraform document that holds, or could hold, a version: the `version` of a
`module` block, the version of an entry in a `required_providers` block, or the `required_version`
of a `terraform` block.

## Main definitions

* `PinKind`: the three kinds of pins
* `Pin`: what a document says at such a place
-/

namespace TerraformPins

/-- The kinds of pins. -/
inductive PinKind where
  | module
  | provider
  | terraform
  deriving DecidableEq, Repr, Inhabited

namespace PinKind

/-- The word for a kind in reports. -/
def word : PinKind → String
  | module => "module"
  | provider => "provider"
  | terraform => "terraform"

end PinKind

/-- What a document says at a place that can hold a version. -/
structure Pin where
  kind : PinKind
  /-- The label of the block or the key of the provider; empty for a block without label. -/
  name : String
  /-- The source of a module, the key of a provider, empty for a `terraform` block. -/
  key : String
  /-- The `source` of a provider entry. -/
  providerSource : Option String
  /-- The version without its quotes, if there is one. -/
  version : Option String
  deriving DecidableEq, Repr, Inhabited

end TerraformPins
