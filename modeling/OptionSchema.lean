import OptionSchema.Compile
import OptionSchema.Context
import OptionSchema.Decimal
import OptionSchema.Defect
import OptionSchema.Entries
import OptionSchema.Failure
import OptionSchema.Inspect
import OptionSchema.Log
import OptionSchema.Raw.Descriptor
import OptionSchema.Raw.Range
import OptionSchema.Raw.Schema
import OptionSchema.Registry.Basic
import OptionSchema.Registry.Register
import OptionSchema.Schema.Basic
import OptionSchema.Schema.Equality
import OptionSchema.Schema.Text
import OptionSchema.Text.Characters
import OptionSchema.Validation.Match
import OptionSchema.Validation.Walk
import OptionSchema.Value.Basic
import OptionSchema.Value.Equality
import OptionSchema.Value.Json
import OptionSchema.Value.Mapping
import OptionSchema.Value.Text
import OptionSchema.Proofs.Rearrangement
import OptionSchema.Proofs.Entries
import OptionSchema.Proofs.Value.Equality
import OptionSchema.Proofs.Naming
import OptionSchema.Proofs.Schema.Expansion
import OptionSchema.Proofs.Output
import OptionSchema.Proofs.Schema.Checked
import OptionSchema.Proofs.Acceptance
import OptionSchema.Proofs.Echoes
import OptionSchema.Proofs.Extension
import OptionSchema.Proofs.OutputProper
import OptionSchema.Proofs.RoundTrip
import OptionSchema.Proofs.Schema.Equality
import OptionSchema.Proofs.OrderIndependence
import OptionSchema.Proofs.WalkedLevels
import OptionSchema.Proofs.Schema.Likeness
import OptionSchema.Proofs.Likeness
import OptionSchema.Proofs.Interchange
import OptionSchema.Proofs.Widening
import OptionSchema.Proofs.Foresight
import OptionSchema.Proofs.Defaults
import OptionSchema.Proofs.DefaultVerdicts
import OptionSchema.Proofs.Registry.History
import OptionSchema.Proofs.Registry.References
import OptionSchema.Proofs.Value.Following
import OptionSchema.Proofs.FailurePaths
import OptionSchema.Proofs.Raw.Range
import OptionSchema.Proofs.Raw.WrittenForm
import OptionSchema.Proofs.Raw.Reading
import OptionSchema.Proofs.Raw.Expression
import OptionSchema.Proofs.Registry.Growth
import OptionSchema.Proofs.Invariant
import OptionSchema.Proofs.FailingWalk
import OptionSchema.Proofs.DepthLimit
import OptionSchema.Proofs.Schema.Violations
import OptionSchema.Proofs.Conformance
import OptionSchema.Proofs.NestedMappings
import OptionSchema.Proofs.FirstFault
import OptionSchema.Proofs.MatchedMaps
import OptionSchema.Proofs.FailureTrees
import OptionSchema.Proofs.Refusal
import OptionSchema.Proofs.WildcardExpansion
import OptionSchema.Proofs.MapWalk
import OptionSchema.Proofs.Value.Hashing
import OptionSchema.Proofs.Value.LargeIntegers
import OptionSchema.Proofs.Value.JsonRoundTrip
import OptionSchema.Proofs.Raw.Attributes
import OptionSchema.Proofs.Raw.AnyDepth
import OptionSchema.Proofs.Raw.Accumulation
import OptionSchema.Proofs.Raw.TypeAttribute
import OptionSchema.Proofs.Value.Identifiers
import OptionSchema.Proofs.Termination.Script
import OptionSchema.Proofs.Termination.Calls
import OptionSchema.Proofs.Termination.Budget
