import TerraformPins.Hcl.Printer
import TerraformPins.Pin

/-!
# Sites of versions

A site is what a document says at a place that can hold a version: the pin, and whether the version
is written as a quoted string. The second matters since writing a version over the same quoted
string changes nothing, while a number or a reference with the same text is replaced.

## Main definitions

* `Expr.plainText`: the text of a value without its quotes
* `Site`: a pin and the quoted string that holds its version
* `Body.sites`: the sites of a document, in the order of the text
-/

namespace TerraformPins

namespace Hcl

/-- The text of a value: what a quoted string means, and any other expression as it is written,
without the blanks and then without the quotes at its ends. -/
def Expr.plainText (e : Expr) : Chars :=
  match e.node with
  | .text value => value
  | _ => trimWhile (· == '"') (trim (e.chars []))

/-- The value of a quoted string. -/
def Expr.quoted? (e : Expr) : Option Chars :=
  match e.node with
  | .text value => some value
  | _ => none

/-- The value of the first entry of an object that has the key `key`. -/
def valueAt? (key : Chars) (entries : List Entry) : Option Expr :=
  (entries.find? fun e => e.keyText? == some key).map Entry.value

end Hcl

open Hcl

/-- A pin, and the quoted string that holds its version, if it is one. -/
structure Site where
  pin : Pin
  literal : Option String
  deriving DecidableEq, Repr, Inhabited

namespace Site

/-- Whether writing `version` changes the document. -/
def changes (site : Site) (version : String) : Bool :=
  site.literal != some version

/-- The pin after `version` has been written. -/
def pinAt (site : Site) (version : String) : Pin :=
  { site.pin with version := some version }

/-- The site of a pin whose version is the value `version`. -/
def ofValue (kind : PinKind) (name key : String) (source : Option String)
    (version : Option Expr) : Site where
  pin := ⟨kind, name, key, source, version.map fun e => String.ofList e.plainText⟩
  literal := version.bind fun e => e.quoted?.map String.ofList

end Site

namespace Document

/-- The attribute that holds a source. -/
def sourceKey : Chars := ['s', 'o', 'u', 'r', 'c', 'e']

/-- The attribute that holds a version. -/
def versionKey : Chars := ['v', 'e', 'r', 's', 'i', 'o', 'n']

/-- The attribute that holds the version of `terraform` itself. -/
def requiredVersionKey : Chars :=
  ['r', 'e', 'q', 'u', 'i', 'r', 'e', 'd', '_', 'v', 'e', 'r', 's', 'i', 'o', 'n']

/-- The block that lists providers. -/
def requiredProvidersWord : Chars :=
  ['r', 'e', 'q', 'u', 'i', 'r', 'e', 'd', '_', 'p', 'r', 'o', 'v', 'i', 'd', 'e', 'r', 's']

/-- The block that calls a module. -/
def moduleWord : Chars := ['m', 'o', 'd', 'u', 'l', 'e']

/-- The block with the settings of `terraform` itself. -/
def terraformWord : Chars := ['t', 'e', 'r', 'r', 'a', 'f', 'o', 'r', 'm']

/-- The site of a `module` block. -/
def moduleSite (labels : List Label) (items : List Structure) : Site :=
  let text (e : Expr) := String.ofList e.plainText
  .ofValue .module (((labels.head?).map fun l => String.ofList l.text).getD "")
    (((items.findSome? (·.valueOf? sourceKey)).map text).getD "") none
    (items.findSome? (·.valueOf? versionKey))

/-- The site of a `terraform` block. -/
def terraformSite (items : List Structure) : Site :=
  .ofValue .terraform "terraform" "" none (items.findSome? (·.valueOf? requiredVersionKey))

/-- The site of an entry of a `required_providers` block. Its value is an object with a version in
it or the version itself; other values are no sites. -/
def providerSite? (key : Chars) (value : Expr) : Option Site :=
  let name := String.ofList key
  match value.node with
  | .object entries _ =>
    some (.ofValue .provider name name
      ((valueAt? sourceKey entries).map fun e => String.ofList e.plainText)
      (valueAt? versionKey entries))
  | .text _ => some (.ofValue .provider name name none (some value))
  | _ => none

/-- The sites in a `required_providers` block. -/
def providerSites (items : List Structure) : List Site :=
  items.filterMap fun
    | .attr _ key _ value => providerSite? key value
    | .block .. => none

/-- The sites of the `required_providers` blocks among the items of a `terraform` block. -/
def nestedSites (items : List Structure) : List Site :=
  items.flatMap fun
    | .block _ word _ _ _ inner => if word = requiredProvidersWord then providerSites inner else []
    | .attr .. => []

/-- The sites of a structure on the top level. -/
def structureSites : Structure → List Site
  | .block _ word _ labels _ items =>
    if word = moduleWord then [moduleSite labels items]
    else if word = terraformWord then terraformSite items :: nestedSites items
    else []
  | .attr .. => []

end Document

/-- The sites of a document, in the order of the text. -/
def Hcl.Body.sites (body : Body) : List Site :=
  body.items.flatMap Document.structureSites

/-- The pins of a document, in the order of the text. -/
def Hcl.Body.pins (body : Body) : List Pin :=
  body.sites.map Site.pin

end TerraformPins
