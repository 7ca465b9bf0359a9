import TerraformPins.Hcl.Printer
import TerraformPins.Proofs.Scan.Replay

/-!
# Heredocs that have their lines

If the lines of a heredoc cannot be read up to its closing word, the reader takes it for one without
lines. Whether this happens depends on the whole rest of the text. An expression is whole if it has
no such heredoc.

## Main definitions

* `Expr.Whole`, `Node.Whole` — no heredoc is without lines
* `Node.gauge`, `Expr.gauge` — the weight of the written form, and whether it is whole
-/

namespace TerraformPins.Hcl

mutual

/-- No heredoc in the expression is without lines. -/
def Expr.Whole : Expr → Prop
  | .mk _ node => node.Whole

/-- No heredoc in the node is without lines. -/
def Node.Whole : Node → Prop
  | .text _ | .number _ | .name _ => True
  | .template parts => WholeParts parts
  | .heredoc _ parts => parts ≠ [] ∧ WholeParts parts
  | .list items _ _ => WholeItems items
  | .object entries _ => WholeEntries entries
  | .listFor _ _ source value condition => source.Whole ∧ value.Whole ∧ WholeCondition condition
  | .objectFor _ _ source key value _ condition =>
    source.Whole ∧ key.Whole ∧ value.Whole ∧ WholeCondition condition
  | .group inner => inner.Whole
  | .unary _ operand => operand.Whole
  | .binary left _ right => left.Whole ∧ right.Whole
  | .conditional condition yes no => condition.Whole ∧ yes.Whole ∧ no.Whole
  | .call _ _ arguments _ _ => WholeItems arguments
  | .select base steps => base.Whole ∧ WholeSteps steps

/-- No heredoc in the condition of a loop is without lines. -/
def WholeCondition : Option Expr → Prop
  | some e => e.Whole
  | none => True

/-- No heredoc in the expressions is without lines. -/
def WholeItems : List Expr → Prop
  | [] => True
  | e :: rest => e.Whole ∧ WholeItems rest

/-- No heredoc in the parts of a template is without lines. -/
def WholeParts : List Part → Prop
  | [] => True
  | part :: rest => part.Whole ∧ WholeParts rest

/-- No heredoc in a part of a template is without lines. -/
def Part.Whole : Part → Prop
  | .literal _ => True
  | .interpolation _ value => value.Whole
  | .branch _ _ condition yes _ no _ => condition.Whole ∧ WholeParts yes ∧ WholeParts no
  | .loop _ _ _ source body _ => source.Whole ∧ WholeParts body

/-- No heredoc in the entries of an object is without lines. -/
def WholeEntries : List Entry → Prop
  | [] => True
  | entry :: rest => entry.Whole ∧ WholeEntries rest

/-- No heredoc in an entry is without lines. -/
def Entry.Whole : Entry → Prop
  | .mk key _ value _ => key.Whole ∧ value.Whole

/-- No heredoc in the steps into a value is without lines. -/
def WholeSteps : List Step → Prop
  | [] => True
  | step :: rest => step.Whole ∧ WholeSteps rest

/-- No heredoc in a step into a value is without lines. -/
def Step.Whole : Step → Prop
  | .dot _ _ _ | .star _ _ _ => True
  | .index _ value => value.Whole

end

-- One function for each of the predicates, since an instance cannot call itself.
mutual

/-- Whether an expression is whole. -/
def Expr.decideWhole : (e : Expr) → Decidable e.Whole
  | .mk _ node => node.decideWhole

/-- Whether a node is whole. -/
def Node.decideWhole : (node : Node) → Decidable node.Whole
  | .text _ | .number _ | .name _ => isTrue trivial
  | .template parts => decideWholeParts parts
  | .heredoc _ parts => @instDecidableAnd _ _ inferInstance (decideWholeParts parts)
  | .list items _ _ => decideWholeItems items
  | .object entries _ => decideWholeEntries entries
  | .listFor _ _ source value condition =>
    @instDecidableAnd _ _ source.decideWhole
      (@instDecidableAnd _ _ value.decideWhole (decideWholeCondition condition))
  | .objectFor _ _ source key value _ condition =>
    @instDecidableAnd _ _ source.decideWhole (@instDecidableAnd _ _ key.decideWhole
      (@instDecidableAnd _ _ value.decideWhole (decideWholeCondition condition)))
  | .group inner => inner.decideWhole
  | .unary _ operand => operand.decideWhole
  | .binary left _ right => @instDecidableAnd _ _ left.decideWhole right.decideWhole
  | .conditional condition yes no =>
    @instDecidableAnd _ _ condition.decideWhole
      (@instDecidableAnd _ _ yes.decideWhole no.decideWhole)
  | .call _ _ arguments _ _ => decideWholeItems arguments
  | .select base steps => @instDecidableAnd _ _ base.decideWhole (decideWholeSteps steps)

/-- Whether the condition of a loop is whole. -/
def decideWholeCondition : (condition : Option Expr) → Decidable (WholeCondition condition)
  | some e => e.decideWhole
  | none => isTrue trivial

/-- Whether expressions are whole. -/
def decideWholeItems : (items : List Expr) → Decidable (WholeItems items)
  | [] => isTrue trivial
  | e :: rest => @instDecidableAnd _ _ e.decideWhole (decideWholeItems rest)

/-- Whether the parts of a template are whole. -/
def decideWholeParts : (parts : List Part) → Decidable (WholeParts parts)
  | [] => isTrue trivial
  | part :: rest => @instDecidableAnd _ _ part.decideWhole (decideWholeParts rest)

/-- Whether a part of a template is whole. -/
def Part.decideWhole : (part : Part) → Decidable part.Whole
  | .literal _ => isTrue trivial
  | .interpolation _ value => value.decideWhole
  | .branch _ _ condition yes _ no _ =>
    @instDecidableAnd _ _ condition.decideWhole
      (@instDecidableAnd _ _ (decideWholeParts yes) (decideWholeParts no))
  | .loop _ _ _ source body _ => @instDecidableAnd _ _ source.decideWhole (decideWholeParts body)

/-- Whether the entries of an object are whole. -/
def decideWholeEntries : (entries : List Entry) → Decidable (WholeEntries entries)
  | [] => isTrue trivial
  | entry :: rest => @instDecidableAnd _ _ entry.decideWhole (decideWholeEntries rest)

/-- Whether an entry is whole. -/
def Entry.decideWhole : (entry : Entry) → Decidable entry.Whole
  | .mk key _ value _ => @instDecidableAnd _ _ key.decideWhole value.decideWhole

/-- Whether the steps into a value are whole. -/
def decideWholeSteps : (steps : List Step) → Decidable (WholeSteps steps)
  | [] => isTrue trivial
  | step :: rest => @instDecidableAnd _ _ step.decideWhole (decideWholeSteps rest)

/-- Whether a step into a value is whole. -/
def Step.decideWhole : (step : Step) → Decidable step.Whole
  | .dot _ _ _ | .star _ _ _ => isTrue trivial
  | .index _ value => value.decideWhole

end

/-- Items are whole if each of them is. -/
theorem wholeItems_iff {items : List Expr} : WholeItems items ↔ ∀ e ∈ items, e.Whole := by
  induction items with
  | nil => simp [WholeItems]
  | cons e rest ih => simp [WholeItems, ih]

theorem wholeParts_iff {parts : List Part} : WholeParts parts ↔ ∀ part ∈ parts, part.Whole := by
  induction parts with
  | nil => simp [WholeParts]
  | cons part rest ih => simp [WholeParts, ih]

theorem wholeEntries_iff {entries : List Entry} :
    WholeEntries entries ↔ ∀ entry ∈ entries, entry.Whole := by
  induction entries with
  | nil => simp [WholeEntries]
  | cons entry rest ih => simp [WholeEntries, ih]

theorem wholeSteps_iff {steps : List Step} : WholeSteps steps ↔ ∀ step ∈ steps, step.Whole := by
  induction steps with
  | nil => simp [WholeSteps]
  | cons step rest ih => simp [WholeSteps, ih]

/-! ### Gauges -/

/-- A node by its written form. -/
def Node.gauge : Gauge Node := ⟨fun node => weight node.chars, Node.Whole⟩

/-- An expression by its written form. -/
def Expr.gauge : Gauge Expr := ⟨fun e => weight (e.chars []), Expr.Whole⟩

/-- A part of a quoted template or a heredoc by its written form. -/
def Part.gauge (quoted : Bool) : Gauge Part := ⟨fun part => weight (part.chars quoted), Part.Whole⟩

/-- The parts of a quoted template or a heredoc by their written form. -/
def partsGauge (quoted : Bool) : Gauge (List Part) :=
  ⟨fun parts => weight (partsChars quoted parts), WholeParts⟩

/-- Expressions with commas between them by their written form. -/
def itemsGauge : Gauge (List Expr) := ⟨fun items => weight (itemsChars items), WholeItems⟩

/-- A step into a value by its written form. -/
def Step.gauge : Gauge Step := ⟨fun step => weight step.chars, Step.Whole⟩

/-- An entry of an object by its written form. -/
def Entry.gauge : Gauge Entry := ⟨fun entry => weight entry.chars, Entry.Whole⟩

/-- A word by its written form. -/
def Word.gauge : Gauge Word := ⟨fun word => weight word.chars, fun _ => True⟩

/-- A directive of one word by its written form. -/
def Marker.gauge : Gauge Marker := ⟨fun marker => weight marker.chars, fun _ => True⟩

/-- A mark that strips blank space by its written form. -/
def stripGauge : Gauge Bool := ⟨fun on => weight (stripChars on), fun _ => True⟩

/-- The items behind the first one weigh what they and their commas weigh. -/
theorem weight_moreItemsChars (items : List Expr) :
    weight (moreItemsChars items) = total (fun e => 1 + weight (e.chars [])) items := by
  induction items with
  | nil => simp [moreItemsChars]
  | cons e rest ih =>
    simp only [moreItemsChars, weight_cons, weight_append, ih, total_cons]
    rfl

/-- The parts of a template weigh what they weigh together. -/
theorem weight_partsChars (quoted : Bool) (parts : List Part) :
    weight (partsChars quoted parts) = total (fun part => weight (part.chars quoted)) parts := by
  induction parts with
  | nil => simp [partsChars]
  | cons part rest ih => simp [partsChars, ih]

theorem weight_entriesChars (entries : List Entry) :
    weight (entriesChars entries) = total (fun entry => weight entry.chars) entries := by
  induction entries with
  | nil => simp [entriesChars]
  | cons entry rest ih => simp [entriesChars, ih]

theorem weight_stepsChars (steps : List Step) :
    weight (stepsChars steps) = total (fun step => weight step.chars) steps := by
  induction steps with
  | nil => simp [stepsChars]
  | cons step rest ih => simp [stepsChars, ih]

end TerraformPins.Hcl
