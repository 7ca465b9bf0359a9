import TerraformPins.Proofs.Hcl.Parsed
import TerraformPins.Proofs.Hcl.Piece
import TerraformPins.Proofs.SetVersion

/-!
# One slot of a document

A version that is set at one slot changes the block that holds the slot, or the value of a provider
in it, and every piece of the text around it stays. The slot has the number of the slots in front of
it.

## Main definitions

* `BlockPlace`, `ProviderPlace` — where a block stands among others, and where a provider stands
* `versionAttribute?` — the attribute in which a block on the top level holds its version
* `Surrounds` — the pieces of a whole are those of a part between fixed pieces

## Main results

* `Document.setVersion_block` — a version set in an attribute of a block
* `Document.setVersion_provider` — a version set at a provider
* `Document.setVersion_block_pieces`, `Document.setVersion_provider_pieces` — the pieces around them
  stay
-/

namespace TerraformPins

open Hcl Document

/-! ### Places -/

/-- Where a block stands among other structures. -/
structure BlockPlace where
  above : List Structure
  layout : Layout
  word : Chars
  gap : Chars
  labels : List Label
  below : List Structure

namespace BlockPlace

/-- The block with the given body. -/
def block (p : BlockPlace) (body : Body) : Structure :=
  .block p.layout p.word p.gap p.labels body.frame body.items

/-- The structures with a block at the place. -/
def items (p : BlockPlace) (body : Body) : List Structure :=
  p.above ++ p.block body :: p.below

end BlockPlace

/-- Where an entry of a `required_providers` block stands in a document. -/
structure ProviderPlace where
  /-- The `terraform` block. -/
  outer : BlockPlace
  outerFrame : Frame
  /-- The `required_providers` block in it. -/
  inner : BlockPlace
  innerFrame : Frame
  above : List Structure
  layout : Layout
  key : Chars
  gap : Option Chars
  around : Layout
  below : List Structure
  outer_word : outer.word = terraformWord
  inner_word : inner.word = requiredProvidersWord

namespace ProviderPlace

/-- The entry with the given value. -/
def entry (p : ProviderPlace) (value : Node) : Structure :=
  .attr p.layout p.key p.gap (.mk p.around value)

/-- The structures of a document with an entry at the place. -/
def items (p : ProviderPlace) (value : Node) : List Structure :=
  p.outer.items ⟨p.outerFrame, p.inner.items ⟨p.innerFrame, p.above ++ p.entry value :: p.below⟩⟩

/-- The number of the site of the entry. -/
def index (p : ProviderPlace) : Nat :=
  (p.outer.above.flatMap structureSites).length +
    ((nestedSites p.inner.above).length + (providerSites p.above).length + 1)

end ProviderPlace

/-- The number of the first site of a block on the top level. -/
def BlockPlace.index (p : BlockPlace) : Nat :=
  (p.above.flatMap structureSites).length

/-- The attribute in which a block with the given word holds its version. -/
def versionAttribute? (word : Chars) : Option Chars :=
  if word = moduleWord then some versionKey
  else if word = terraformWord then some requiredVersionKey
  else none

/-! ### Where a version is written -/

/-- A write at a slot of one member of a list. -/
theorem Shelf.write_single_append {α : Type} (S : Shelf α) (init rest : List α) {x : α} {j : Nat}
    (bound : j < (S.slots x).length) (v : String) :
    S.writeList (.single ((init.flatMap S.slots).length + j) v) (init ++ x :: rest) =
      init ++ S.write (.single j v) x :: rest := by
  have front : S.writeList (.single ((init.flatMap S.slots).length + j) v) init = init :=
    S.list.write_eq_self _ init (Writes.repeats_single_of_le (Nat.le_add_right _ j) v)
  have here : (Writes.single ((init.flatMap S.slots).length + j) v).shift
      (init.flatMap S.slots).length = .single j v := by
    rw [Writes.shift_single_of_le (Nat.le_add_right _ j), Nat.add_sub_cancel_left]
  -- The members behind have later slots.
  have behind : S.writeList ((Writes.single j v).shift (S.slots x).length) rest = rest :=
    S.list.write_eq_self _ rest (Writes.repeats_shift_single_of_lt bound _ v)
  rw [writeList_append, front, here, writeList, behind]

theorem length_structureSites (init : List Structure) :
    (init.flatMap structureSites).length = (init.flatMap structureShelf.slots).length := by
  simp [List.length_flatMap, structureSites_eq]

theorem length_nestedSites (init : List Structure) :
    (nestedSites init).length = (init.flatMap nestedShelf.slots).length := by
  rw [nestedSites_eq, List.length_map]

theorem length_providerSites (init : List Structure) :
    (providerSites init).length = (init.flatMap providerShelf.slots).length := by
  rw [providerSites_eq, List.length_map]
  rfl

theorem terraformWord_ne_moduleWord : terraformWord ≠ moduleWord := by
  decide

namespace BlockPlace

variable (p : BlockPlace) (body : Body) {key : Chars}

/-- The slot of an attribute is the first one of its block. -/
theorem slots_pos (holds : versionAttribute? p.word = some key) :
    0 < (structureShelf.slots (p.block body)).length := by
  simp only [block, structureShelf, Shelf.within]
  unfold versionAttribute? at holds
  by_cases isModule : p.word = moduleWord
  · rw [if_pos isModule]
    exact Nat.zero_lt_one
  · rw [if_neg isModule] at holds ⊢
    by_cases isTerraform : p.word = terraformWord
    · rw [if_pos isTerraform]
      exact Nat.succ_pos _
    · rw [if_neg isTerraform] at holds
      cases holds

/-- A version that is written at the slot of an attribute. -/
theorem write_block (holds : versionAttribute? p.word = some key) (v : String) :
    structureShelf.write (.single 0 v) (p.block body) = p.block
      (body.setAttribute key v.toList) := by
  simp only [block, structureShelf, Shelf.within]
  unfold versionAttribute? at holds
  by_cases isModule : p.word = moduleWord
  · rw [if_pos isModule] at holds ⊢
    obtain rfl := Option.some.inj holds
    rfl
  · rw [if_neg isModule] at holds ⊢
    by_cases isTerraform : p.word = terraformWord
    · rw [if_pos isTerraform] at holds ⊢
      obtain rfl := Option.some.inj holds
      -- The providers in the block have later numbers.
      have later : nestedBodyShelf.write ((Writes.single 0 v).shift 1)
          (requiredShelf.write (.single 0 v) body) = requiredShelf.write (.single 0 v) body :=
        nestedBodyShelf.write_eq_self _ _ (Writes.repeats_shift_single_of_lt Nat.zero_lt_one _ v)
      exact congrArg p.block later
    · rw [if_neg isTerraform] at holds
      cases holds

/-- A version that is written behind the one of `terraform` itself. -/
theorem write_terraform_succ (word : p.word = terraformWord) (i : Nat) (v : String) :
    structureShelf.write (.single (i + 1) v) (p.block body) =
      p.block { body with items := nestedShelf.writeList (.single i v) body.items } := by
  have required : requiredShelf.write (.single (i + 1) v) body = body :=
    requiredShelf.write_eq_self _ _
      (Writes.repeats_single_of_le (Nat.succ_le_succ (Nat.zero_le i)) v)
  -- Seen from the nested blocks, the slot of `terraform` itself does not count.
  have shifted : (Writes.single (i + 1) v).shift 1 = .single i v :=
    Writes.shift_single_of_le (Nat.succ_le_succ (Nat.zero_le i)) v
  have both : terraformShelf.write (.single (i + 1) v) body =
      { body with items := nestedShelf.writeList (.single i v) body.items } := by
    show nestedBodyShelf.write ((Writes.single (i + 1) v).shift 1)
      (requiredShelf.write (.single (i + 1) v) body) = _
    rw [required, shifted]
    rfl
  simp only [block, structureShelf, Shelf.within, word, if_neg terraformWord_ne_moduleWord, if_true]
  exact congrArg
    (fun b : Body => Structure.block p.layout terraformWord p.gap p.labels b.frame b.items) both

theorem length_slots_terraform (word : p.word = terraformWord) :
    (structureShelf.slots (p.block body)).length = (nestedSites body.items).length + 1 := by
  simp only [block, structureShelf, Shelf.within, word, if_neg terraformWord_ne_moduleWord, if_true]
  show (requiredShelf.slots body ++ nestedBodyShelf.slots body).length = _
  rw [List.length_append, slots_nestedBody, length_nestedSites, Nat.add_comm]
  rfl

end BlockPlace

namespace ProviderPlace

variable (p : ProviderPlace) (entries : List Entry) (closing : Chars)

/-- The `required_providers` block. -/
def providers (value : Node) : Structure :=
  p.inner.block ⟨p.innerFrame, p.above ++ p.entry value :: p.below⟩

theorem slots_entry_pos : 0 < (providerShelf.slots (p.entry (.object entries closing))).length :=
  Nat.zero_lt_one

theorem slots_providers (value : Node) : nestedShelf.slots (p.providers value) =
    (p.above ++ p.entry value :: p.below).flatMap providerShelf.slots := by
  simp only [providers, BlockPlace.block, nestedShelf, Shelf.within, p.inner_word, if_true]
  rfl

theorem slots_providers_lt :
    (providerSites p.above).length <
      (nestedShelf.slots (p.providers (.object entries closing))).length := by
  have own := p.slots_entry_pos entries closing
  rw [slots_providers, length_providerSites, List.flatMap_append, List.flatMap_cons,
    List.length_append, List.length_append]
  omega

/-- A version that is written at the entry. -/
theorem write_providers (v : String) :
    nestedShelf.write (.single (providerSites p.above).length v)
      (p.providers (.object entries closing)) =
      p.providers (.object (setVersionEntry entries v.toList) closing) := by
  have written := providerShelf.write_single_append p.above p.below
    (p.slots_entry_pos entries closing) v
  rw [Nat.add_zero, ← length_providerSites] at written
  simp only [providers, BlockPlace.block, nestedShelf, Shelf.within, p.inner_word, if_true]
  exact congrArg (Structure.block p.inner.layout requiredProvidersWord p.inner.gap p.inner.labels
    p.innerFrame) written

end ProviderPlace

namespace Document

variable {d : Document}

/-- The first site of a structure has the number of the sites in front of it. -/
theorem sites_getElem?_of_split {init rest : List Structure} {x : Structure}
    (split : d.body.items = init ++ x :: rest) (j : Nat) {site : Site}
    (here : (structureSites x)[j]? = some site) :
    d.sites[(init.flatMap structureSites).length + j]? = some site := by
  rw [sites, Body.sites, split, List.flatMap_append, List.flatMap_cons,
    List.getElem?_append_right (Nat.le_add_right _ j), Nat.add_sub_cancel_left,
    List.getElem?_append_left]
  · exact here
  · exact (List.getElem?_eq_some_iff.mp here).1

/-- The site of a block on the top level. -/
theorem sites_block {p : BlockPlace} {body : Body} (split : d.body.items = p.items body)
    {key : Chars} (holds : versionAttribute? p.word = some key) :
    d.sites[p.index]? =
      some (if p.word = moduleWord then moduleSite p.labels body.items
        else terraformSite body.items) := by
  refine sites_getElem?_of_split split 0 ?_
  unfold versionAttribute? at holds
  by_cases isModule : p.word = moduleWord
  · simp [BlockPlace.block, structureSites, isModule]
  · rw [if_neg isModule] at holds
    by_cases isTerraform : p.word = terraformWord
    · simp [BlockPlace.block, structureSites, isTerraform, terraformWord_ne_moduleWord]
    · rw [if_neg isTerraform] at holds
      cases holds

/-- The site of a provider whose value is an object. -/
theorem sites_provider {p : ProviderPlace} {entries : List Entry} {closing : Chars}
    (split : d.body.items = p.items (.object entries closing)) :
    d.sites[p.index]? = providerSite? p.key (.mk p.around (.object entries closing)) := by
  obtain ⟨site, found⟩ : ∃ site,
      providerSite? p.key (.mk p.around (.object entries closing)) = some site :=
    ⟨_, rfl⟩
  rw [found]
  refine sites_getElem?_of_split split _ ?_
  -- The site is counted within the `terraform` block, whose own site is the first one.
  have inside : (nestedSites (p.inner.items ⟨p.innerFrame,
      p.above ++ p.entry
        (.object entries closing) :: p.below⟩))[(nestedSites p.inner.above).length +
        (providerSites p.above).length]? = some site := by
    simp [nestedSites, providerSites, BlockPlace.items, BlockPlace.block, p.inner_word,
      ProviderPlace.entry, found]
  simpa [BlockPlace.block, structureSites, p.outer_word, terraformWord_ne_moduleWord] using inside

/-- A version that is set at a slot of one structure. -/
theorem setVersion_of_split {init rest : List Structure} {x : Structure}
    (split : d.body.items = init ++ x :: rest) {j : Nat}
    (bound : j < (structureShelf.slots x).length) (v : String) :
    d.setVersion ((init.flatMap structureSites).length + j) v =
      ⟨⟨d.body.frame, init ++ structureShelf.write (.single j v) x :: rest⟩⟩ := by
  rw [setVersion_eq, length_structureSites]
  have written := structureShelf.write_single_append init rest bound v
  rw [← split] at written
  exact congrArg (fun items => Document.mk ⟨d.body.frame, items⟩) written

/-- A version that is set in an attribute of a block. -/
theorem setVersion_block {p : BlockPlace} {body : Body} (split : d.body.items = p.items body)
    {key : Chars} (holds : versionAttribute? p.word = some key) (v : String) :
    d.setVersion p.index v = ⟨⟨d.body.frame, p.items (body.setAttribute key v.toList)⟩⟩ := by
  rw [BlockPlace.items, ← p.write_block body holds]
  exact setVersion_of_split split (p.slots_pos body holds) v

/-- A version that is set at a provider whose value is an object. -/
theorem setVersion_provider {p : ProviderPlace} {entries : List Entry} {closing : Chars}
    (split : d.body.items = p.items (.object entries closing)) (v : String) :
    d.setVersion p.index v =
      ⟨⟨d.body.frame, p.items (.object (setVersionEntry entries v.toList) closing)⟩⟩ := by
  have nested : nestedShelf.writeList
      (.single ((nestedSites p.inner.above).length + (providerSites p.above).length) v)
      (p.inner.above ++ p.providers (.object entries closing) :: p.inner.below) =
        p.inner.above ++ p.providers (.object (setVersionEntry entries v.toList) closing) ::
          p.inner.below := by
    rw [length_nestedSites,
      nestedShelf.write_single_append _ _ (p.slots_providers_lt entries closing), p.write_providers]
  rw [ProviderPlace.index, setVersion_of_split split, p.outer.write_terraform_succ _ p.outer_word]
  · exact congrArg
      (fun items => Document.mk ⟨d.body.frame, p.outer.items ⟨p.outerFrame, items⟩⟩) nested
  · have own := p.slots_providers_lt entries closing
    rw [p.outer.length_slots_terraform _ p.outer_word, length_nestedSites, length_nestedSites]
    show _ < ((p.inner.above ++ p.providers (.object entries closing) :: p.inner.below).flatMap
      nestedShelf.slots).length + 1
    rw [List.flatMap_append, List.flatMap_cons, List.length_append, List.length_append]
    omega

end Document

/-! ### The pieces around a place -/

/-- The pieces of a whole are those of a part between fixed pieces. -/
def Surrounds {α : Type} (whole part : α → List Piece) : Prop :=
  ∃ front back, ∀ x, whole x = front ++ part x ++ back

namespace Surrounds

variable {α β : Type} {whole middle part : α → List Piece}

theorem trans (outer : Surrounds whole middle) (inner : Surrounds middle part) :
    Surrounds whole part := by
  obtain ⟨front, back, split⟩ := outer
  obtain ⟨front', back', split'⟩ := inner
  exact ⟨front ++ front', back' ++ back, fun x => by simp [split, split']⟩

theorem comp (h : Surrounds whole part) (f : β → α) :
    Surrounds (fun x => whole (f x)) fun x => part (f x) := by
  obtain ⟨front, back, split⟩ := h
  exact ⟨front, back, fun x => split (f x)⟩

end Surrounds

namespace Hcl

theorem surrounds_lines (ends : Bool) (init rest : List Structure) :
    Surrounds (fun s => linesPieces ends (init ++ s :: rest)) Structure.pieces := by
  induction init with
  | nil =>
    exact ⟨[], .solid (if rest.isEmpty ∧ ¬ ends then [] else ['\n']) :: linesPieces ends rest,
      fun s => by simp [linesPieces]⟩
  | cons first init ih =>
    obtain ⟨front, back, split⟩ := ih
    exact ⟨first.pieces ++ .solid ['\n'] :: front, back, fun s => by simp [linesPieces, split]⟩

theorem surrounds_row (init rest : List Structure) :
    Surrounds (fun s => rowPieces (init ++ s :: rest)) Structure.pieces := by
  induction init with
  | nil => exact ⟨[], rowPieces rest, fun s => by simp [rowPieces]⟩
  | cons first init ih =>
    obtain ⟨front, back, split⟩ := ih
    exact ⟨first.pieces ++ front, back, fun s => by simp [rowPieces, split]⟩

/-- The pieces between the braces of a block. -/
def Body.innerPieces (body : Body) : List Piece :=
  .blank body.frame.opening ::
    (if body.frame.oneLine then rowPieces body.items
      else .solid ['\n'] :: linesPieces body.frame.lastLineEnds body.items) ++
    [.blank body.frame.closing]

theorem Body.joined_innerPieces (body : Body) : joined body.innerPieces = body.innerChars := by
  obtain ⟨⟨opening, closing, oneLine, ends⟩, items⟩ := body
  cases oneLine <;> simp [innerPieces, innerChars, joined_rowPieces, joined_linesPieces]

theorem surrounds_items (frame : Frame) (init rest : List Structure) :
    Surrounds (fun s => Body.innerPieces ⟨frame, init ++ s :: rest⟩) Structure.pieces := by
  have middle : Surrounds (fun s => Body.innerPieces ⟨frame, init ++ s :: rest⟩) fun s =>
      if frame.oneLine then rowPieces (init ++ s :: rest)
      else .solid ['\n'] :: linesPieces frame.lastLineEnds (init ++ s :: rest) :=
    ⟨[.blank frame.opening], [.blank frame.closing], fun s => rfl⟩
  refine middle.trans ?_
  cases frame.oneLine with
  | true => exact surrounds_row init rest
  | false =>
    obtain ⟨front, back, split⟩ := surrounds_lines frame.lastLineEnds init rest
    exact ⟨.solid ['\n'] :: front, back, fun s => by simp [split]⟩

theorem surrounds_body (frame : Frame) (init rest : List Structure) :
    Surrounds (fun s => Body.pieces ⟨frame, init ++ s :: rest⟩) Structure.pieces := by
  obtain ⟨front, back, split⟩ := surrounds_lines frame.lastLineEnds init rest
  exact ⟨front, back ++ [.blank frame.closing], fun s => by simp [Body.pieces, split]⟩

theorem surrounds_value (layout : Layout) (key : Chars) (gap : Option Chars) (around : Layout) :
    Surrounds (fun node => (Structure.attr layout key gap (.mk around node)).pieces) Node.pieces :=
  ⟨[.blank (layout.before.getD []), .solid key, .blank (gap.getD [' ']), .solid ['='],
      .blank (around.before.getD [' '])],
    [.blank (around.after.getD []), .blank (layout.after.getD [])],
    fun node => by simp [Structure.pieces, Expr.pieces, Layout.pieces]⟩

end Hcl

/-- The pieces around what is between the braces of a block. The opening brace is the last one of
them in front, and the closing one the first behind. -/
theorem BlockPlace.surrounds_block (p : BlockPlace) :
    ∃ front back, ∀ body, (p.block body).pieces =
      front ++ .solid ['{'] :: body.innerPieces ++ .solid ['}'] :: back :=
  ⟨.blank (p.layout.before.getD []) :: .solid p.word :: .blank p.gap ::
    p.labels.flatMap Label.pieces, [.blank (p.layout.after.getD [])], fun body => by
      simp [block, Structure.pieces, Layout.pieces, Body.innerPieces]⟩

theorem BlockPlace.surrounds (p : BlockPlace) (frame : Frame) :
    ∃ front back, ∀ body, Body.pieces ⟨frame, p.items body⟩ =
      front ++ .solid ['{'] :: body.innerPieces ++ .solid ['}'] :: back := by
  obtain ⟨front, back, split⟩ := surrounds_body frame p.above p.below
  obtain ⟨front', back', split'⟩ := p.surrounds_block
  exact ⟨front ++ front', back' ++ back, fun body => by simp [items, split, split']⟩

theorem ProviderPlace.surrounds (p : ProviderPlace) (frame : Frame) :
    Surrounds (fun value => Body.pieces ⟨frame, p.items value⟩) Node.pieces := by
  have inside (q : BlockPlace) :
    Surrounds (fun body => (q.block body).pieces) Body.innerPieces := by
    obtain ⟨front, back, split⟩ := q.surrounds_block
    exact ⟨front ++ [.solid ['{']], .solid ['}'] :: back, fun body => by simp [split]⟩
  -- From the document through both blocks to the value, one level after another.
  exact ((surrounds_body frame p.outer.above p.outer.below).comp _).trans <|
    ((inside p.outer).comp fun value =>
      ⟨p.outerFrame, p.inner.items ⟨p.innerFrame, p.above ++ p.entry value :: p.below⟩⟩).trans <|
    ((surrounds_items p.outerFrame p.inner.above p.inner.below).comp p.providers).trans <|
    ((inside p.inner).comp fun value =>
      ⟨p.innerFrame, p.above ++ p.entry value :: p.below⟩).trans <|
    ((surrounds_items p.innerFrame p.above p.below).comp p.entry).trans <|
      surrounds_value p.layout p.key p.gap p.around

/-- The text of a document is made of its pieces. -/
theorem Document.text_eq (d : Document) : d.text = String.ofList (joined d.body.pieces) := by
  rw [text, Body.joined_pieces]

/-- The pieces of a document around what is between the braces of one of its blocks. -/
theorem Document.setVersion_block_pieces {d : Document} {p : BlockPlace} {body : Body}
    (split : d.body.items = p.items body) {key : Chars}
    (holds : versionAttribute? p.word = some key) (v : String) :
    ∃ front back, d.body.pieces = front ++ .solid ['{'] :: body.innerPieces ++ .solid ['}'] ::
      back ∧ (d.setVersion p.index v).body.pieces =
        front ++ .solid ['{'] :: (body.setAttribute key v.toList).innerPieces ++
        .solid ['}'] :: back := by
  obtain ⟨front, back, around⟩ := p.surrounds d.body.frame
  refine ⟨front, back, ?_, ?_⟩
  · rw [← around, ← split]
  · rw [setVersion_block split holds, around]

/-- The pieces of a document around an object that is the value of a provider. -/
theorem Document.setVersion_provider_pieces {d : Document} {p : ProviderPlace}
    {entries : List Entry} {closing : Chars}
    (split : d.body.items = p.items (.object entries closing)) (v : String) :
    ∃ front back, d.body.pieces = front ++ (Node.object entries closing).pieces ++ back ∧
      (d.setVersion p.index v).body.pieces =
        front ++ (Node.object (setVersionEntry entries v.toList) closing).pieces ++ back := by
  obtain ⟨front, back, around⟩ : ∃ front back, ∀ value : Node,
      Body.pieces ⟨d.body.frame, p.items value⟩ = front ++ value.pieces ++ back :=
      p.surrounds d.body.frame
  refine ⟨front, back, ?_, ?_⟩
  · rw [← around, ← split]
  · rw [setVersion_provider split, around]

end TerraformPins
