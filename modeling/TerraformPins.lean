import TerraformPins.Main
import TerraformPins.Proofs.SetVersion
import TerraformPins.Proofs.Update
import TerraformPins.Proofs.Wildcard
import TerraformPins.Proofs.Hcl.Blank
import TerraformPins.Proofs.Hcl.Bracket
import TerraformPins.Proofs.Hcl.Heredoc
import TerraformPins.Proofs.Hcl.Loop
import TerraformPins.Proofs.FileTree
import TerraformPins.Proofs.DryRun
import TerraformPins.Proofs.Overwrite
import TerraformPins.Proofs.Hcl.Expression
import TerraformPins.Proofs.Hcl.KeyStart
import TerraformPins.Proofs.Hcl.Line
import TerraformPins.Proofs.Abort
import TerraformPins.Proofs.Isolation
import TerraformPins.Proofs.Repetition
import TerraformPins.Proofs.Roundtrip
import TerraformPins.Proofs.Provenance
import TerraformPins.Proofs.Order
import TerraformPins.Proofs.Protection
import TerraformPins.Proofs.Changed
import TerraformPins.Proofs.AddedAttribute
import TerraformPins.Proofs.AddedEntry
import TerraformPins.Proofs.FrontEnds
import TerraformPins.Proofs.Batch.LoneText
import TerraformPins.Proofs.Discovery
import TerraformPins.Proofs.AddMissing
import TerraformPins.Proofs.Wildcard.Bounds
import TerraformPins.Proofs.Tightening
import TerraformPins.Proofs.RunReport
