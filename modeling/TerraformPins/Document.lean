import TerraformPins.Document.Edit
import TerraformPins.Hcl.Reader

/-!
# Terraform documents

A document is the tree of an HCL text. It is read, printed, asked for its pins and walked: a walk
visits the sites in the order of the text, may write a version at each of them, and carries a state
along. A site is looked at when the walk comes to it.

## Main definitions

* `Document.read?`, `Document.text`: from text and back
* `Document.pins`: the pins of a document
* `Document.walk`: visiting every site
-/

namespace TerraformPins

/-- A Terraform document. -/
structure Document where
  body : Hcl.Body
  deriving Inhabited

namespace Document

open Hcl

/-- The document that a text is, unless it is not HCL. -/
def read? (text : String) : Option Document :=
  (Body.read? text.toList).map Document.mk

/-- The text of a document. -/
def text (d : Document) : String :=
  String.ofList d.body.chars

/-- The sites of a document, in the order of the text. -/
def sites (d : Document) : List Site :=
  d.body.sites

/-- The pins of a document, in the order of the text. -/
def pins (d : Document) : List Pin :=
  d.body.pins

/-- What a walk does at a site: it carries a state along and may give a version to write. -/
abbrev Visit (σ : Type) := σ → Site → σ × Option String

/-- Changes every member of a list in turn, carrying a state along. -/
def mapWith (f : σ → α → σ × α) : σ → List α → σ × List α
  | s, [] => (s, [])
  | s, x :: xs =>
    let (s, x) := f s x
    let (s, xs) := mapWith f s xs
    (s, x :: xs)

variable {σ : Type}

/-- Visits an entry of a `required_providers` block. -/
def walkProvider (visit : Visit σ) (s : σ) : Structure → σ × Structure
  | .attr layout key gap value =>
    match providerSite? key value with
    | none => (s, .attr layout key gap value)
    | some site =>
      match visit s site with
      | (s, none) => (s, .attr layout key gap value)
      | (s, some version) =>
        (s, .attr layout key gap (value.setProviderVersion version.toList))
  | item => (s, item)

/-- Visits the entries of a `required_providers` block. -/
def walkNested (visit : Visit σ) (s : σ) : Structure → σ × Structure
  | .block layout word gap labels frame items =>
    if word = requiredProvidersWord then
      let (s, items) := mapWith (walkProvider visit) s items
      (s, .block layout word gap labels frame items)
    else (s, .block layout word gap labels frame items)
  | item => (s, item)

/-- Visits the site of a block that holds its version in the attribute `key`. -/
def walkAttribute (visit : Visit σ) (s : σ) (site : Site) (key : Chars) (body : Body) : σ × Body :=
  match visit s site with
  | (s, none) => (s, body)
  | (s, some version) => (s, body.setAttribute key version.toList)

/-- Visits the sites of a structure on the top level. -/
def walkStructure (visit : Visit σ) (s : σ) : Structure → σ × Structure
  | .block layout word gap labels frame items =>
    if word = moduleWord then
      let (s, body) := walkAttribute visit s (moduleSite labels items) versionKey ⟨frame, items⟩
      (s, .block layout word gap labels body.frame body.items)
    else if word = terraformWord then
      let (s, body) := walkAttribute visit s (terraformSite items) requiredVersionKey ⟨frame, items⟩
      let (s, items) := mapWith (walkNested visit) s body.items
      (s, .block layout word gap labels body.frame items)
    else (s, .block layout word gap labels frame items)
  | item => (s, item)

/-- Visits every site of a document, in the order of the text. -/
def walk (visit : Visit σ) (s : σ) (d : Document) : σ × Document :=
  let (s, items) := mapWith (walkStructure visit) s d.body.items
  (s, ⟨⟨d.body.frame, items⟩⟩)

/-- Writes `version` at the site with the number `index`. -/
def setVersion (d : Document) (index : Nat) (version : String) : Document :=
  (d.walk (fun i _ => (i + 1, if i = index then some version else none)) 0).2

end Document

end TerraformPins
