import ClassWeave.Cursor
import ClassWeave.Decimal.FloatText
import ClassWeave.Text.ModifiedUtf8
import ClassWeave.Text.Quoted
import ClassWeave.Text.Upper
import ClassWeave.Access
import ClassWeave.Insn
import ClassWeave.Pool
import ClassWeave.StackMap
import ClassWeave.ClassFile.Decode
import ClassWeave.Hierarchy
import ClassWeave.Analysis.Effect
import ClassWeave.Analysis.Reframe
import ClassWeave.ClassFile.Encode
import ClassWeave.Edit.Apply
import ClassWeave.Listing
import ClassWeave.Multiplier
import ClassWeave.Json.Read
import ClassWeave.Json.Write
import ClassWeave.Hooks.Validation
import ClassWeave.Hooks.Format
import ClassWeave.Mixin.Format
import ClassWeave.Mixin.Resolve
import ClassWeave.Injection.Format
import ClassWeave.Main
import ClassWeave.Proofs.RoundTrip
import ClassWeave.Proofs.Intact
import ClassWeave.Proofs.Analysis.Joins
import ClassWeave.Proofs.Pool.Calls
import ClassWeave.Proofs.Bootstraps.Calls
import ClassWeave.Proofs.CodeArray
import ClassWeave.Proofs.Injection
import ClassWeave.Proofs.Analysis.Fixpoint
import ClassWeave.Proofs.Group
import ClassWeave.Proofs.Analysis.Reframe
import ClassWeave.Proofs.Analysis.Labels
import ClassWeave.Proofs.Analysis.Burial
import ClassWeave.Proofs.Analysis.Hints
import ClassWeave.Proofs.Additions
import ClassWeave.Proofs.Reinjection
import ClassWeave.Proofs.Preserved
import ClassWeave.Proofs.Accessors
import ClassWeave.Proofs.EntryPoint
import ClassWeave.Proofs.Fitting
import ClassWeave.Proofs.Registration
import ClassWeave.Proofs.Idempotence
import ClassWeave.Proofs.Shadows
import ClassWeave.Proofs.Callees
import ClassWeave.Proofs.Unchanged
import ClassWeave.Proofs.Prefixes
import ClassWeave.Proofs.Stable
import ClassWeave.Proofs.Binding.Histories
import ClassWeave.Proofs.Validation
import ClassWeave.Proofs.DirectoryRun
import ClassWeave.Proofs.Analysis.References
import ClassWeave.Proofs.Subtyping
import ClassWeave.Proofs.Analysis.Termination
import ClassWeave.Proofs.SlotCounts
import ClassWeave.Proofs.Callbacks.Arguments
import ClassWeave.Proofs.Widening.Control
import ClassWeave.Proofs.Body.Rounds
import ClassWeave.Proofs.Callbacks.Balance
import ClassWeave.Proofs.Synthesized
import ClassWeave.Proofs.Copies.Clashes
import ClassWeave.Proofs.Supertypes
import ClassWeave.Proofs.Descriptor.Renamed
import ClassWeave.Proofs.Unrelated
import ClassWeave.Proofs.Validation.Multipliers
import ClassWeave.Proofs.Bootstraps.Nesting
import ClassWeave.Proofs.Multiplier.Range
import ClassWeave.Proofs.Pool.Sources
import ClassWeave.Proofs.Emission.Extents
import ClassWeave.Proofs.Analysis.Regular
