import ConfigOverlay.Configuration
import ConfigOverlay.Markup.Writer
import ConfigOverlay.Tree.Json
import ConfigOverlay.Proofs.Tree.Attributes
import ConfigOverlay.Proofs.Tree.Throughout
import ConfigOverlay.Proofs.Merge.Layout
import ConfigOverlay.Proofs.Merge.Grouping
import ConfigOverlay.Proofs.Merge.Overlay
import ConfigOverlay.Proofs.Merge.Keyed
import ConfigOverlay.Proofs.Merge.Premerge
import ConfigOverlay.Proofs.Merge.Sweep
import ConfigOverlay.Proofs.Merge.LastLayer
import ConfigOverlay.Proofs.Property.Comparison
import ConfigOverlay.Proofs.Property.Marks
import ConfigOverlay.Proofs.Property.Sources
import ConfigOverlay.Proofs.Property.Clean
import ConfigOverlay.Proofs.Property.Unguarded
import ConfigOverlay.Proofs.Property.Termination
import ConfigOverlay.Proofs.Property.Cycles
import ConfigOverlay.Proofs.Property.Requests
import ConfigOverlay.Proofs.Property.Concatenation
import ConfigOverlay.Proofs.Property.Decomposition
import ConfigOverlay.Proofs.Property.Alternatives
import ConfigOverlay.Proofs.Property.Unresolvable
import ConfigOverlay.Proofs.Property.Traversed
import ConfigOverlay.Proofs.Property.Expanded
import ConfigOverlay.Proofs.Property.DocumentOrder
import ConfigOverlay.Proofs.Property.Document
import ConfigOverlay.Proofs.Merge.Opening
import ConfigOverlay.Proofs.Merge.Steps
import ConfigOverlay.Proofs.Merge.Runs
import ConfigOverlay.Proofs.Merge.Removal
import ConfigOverlay.Proofs.Merge.Arranged
import ConfigOverlay.Proofs.Merge.Followed
import ConfigOverlay.Proofs.Merge.Overridable
import ConfigOverlay.Proofs.Merge.Beside
import ConfigOverlay.Proofs.Merge.Defaults
import ConfigOverlay.Proofs.Merge.Distinct
import ConfigOverlay.Proofs.Json.Quoted
import ConfigOverlay.Proofs.Json.RoundTrip
import ConfigOverlay.Proofs.Tree.Json
import ConfigOverlay.Proofs.Markup.CharacterData
import ConfigOverlay.Proofs.Markup.Token
import ConfigOverlay.Proofs.Markup.RoundTrip
import ConfigOverlay.Proofs.Markup.Legal
import ConfigOverlay.Proofs.Markup.Reread
import ConfigOverlay.Proofs.Property.Repetition
import ConfigOverlay.Proofs.Merge.Override
import ConfigOverlay.Proofs.Merge.Edited
import ConfigOverlay.Proofs.Merge.Appending
import ConfigOverlay.Proofs.UniqueNames
import ConfigOverlay.Proofs.Merge.Reading
import ConfigOverlay.Proofs.Merge.Faults
import ConfigOverlay.Proofs.Merge.Accounted
import ConfigOverlay.Proofs.Merge.Unread
import ConfigOverlay.Proofs.Merge.Swept
import ConfigOverlay.Proofs.Merge.Reapplied
import ConfigOverlay.Proofs.Property.Skipping
import ConfigOverlay.Proofs.Property.Flattening
import ConfigOverlay.Proofs.Merge.Skeletons
import ConfigOverlay.Proofs.Property.Distribution
import ConfigOverlay.Proofs.Property.Addressed
import ConfigOverlay.Proofs.Merge.Pairing
import ConfigOverlay.Proofs.Merge.Attributes
import ConfigOverlay.Proofs.Merge.LeftBehind
