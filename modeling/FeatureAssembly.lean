import FeatureAssembly.Artifact.Metadata
import FeatureAssembly.Coordinate.Order
import FeatureAssembly.Feature.Equality
import FeatureAssembly.Settings.Forms
import FeatureAssembly.Proofs.Outcome
import FeatureAssembly.Proofs.StructuralErrors
import FeatureAssembly.Proofs.Distinct
import FeatureAssembly.Proofs.SideBySide
import FeatureAssembly.Proofs.CopyIntoEmpty
import FeatureAssembly.Proofs.RuleIndependence
import FeatureAssembly.Proofs.Layering
import FeatureAssembly.Proofs.NearestDefinition
import FeatureAssembly.Proofs.Contributors
import FeatureAssembly.Proofs.ArtifactMerge
import FeatureAssembly.Proofs.Overrides
import FeatureAssembly.Proofs.Provenance
import FeatureAssembly.Proofs.Beside
import FeatureAssembly.Proofs.BundleOrigins
import FeatureAssembly.Proofs.Grouping
import FeatureAssembly.Proofs.EntryPoints
import FeatureAssembly.Proofs.Descent
import FeatureAssembly.Proofs.WellFormed
import FeatureAssembly.Proofs.CoordinateOrder
import FeatureAssembly.Proofs.Cutting
import FeatureAssembly.Proofs.CoordinateForms
import FeatureAssembly.Proofs.CoordinateReaders
import FeatureAssembly.Proofs.VersionReaders
import FeatureAssembly.Proofs.ArtifactMetadata
import FeatureAssembly.Proofs.Tracks
import FeatureAssembly.Proofs.StaleRecords
import FeatureAssembly.Proofs.CopyOrder
import FeatureAssembly.Proofs.MergeFrame
import FeatureAssembly.Proofs.PolicyOutcome
import FeatureAssembly.Proofs.HigherVersions
import FeatureAssembly.Proofs.MergeFaults
import FeatureAssembly.Proofs.AcceptedRules
import FeatureAssembly.Proofs.RuleTexts
import FeatureAssembly.Proofs.LayerFaults
import FeatureAssembly.Proofs.RuleHints
import FeatureAssembly.Proofs.LocalSteps
import FeatureAssembly.Proofs.ConfigurationMerge
import FeatureAssembly.Proofs.PropertyUnion
import FeatureAssembly.Proofs.JsonEntries
import FeatureAssembly.Proofs.Bracketing
import FeatureAssembly.Proofs.JsonAssociativity
import FeatureAssembly.Proofs.JsonConflicts
import FeatureAssembly.Proofs.Placeholders
import FeatureAssembly.Proofs.SubstitutedTexts
import FeatureAssembly.Proofs.ExtensionSeries
import FeatureAssembly.Proofs.Delegation
import FeatureAssembly.Proofs.RepositoryPaths
import FeatureAssembly.Proofs.HighestFeatures
import FeatureAssembly.Proofs.NamedArtifacts
import FeatureAssembly.Proofs.BundleRemoval
import FeatureAssembly.Proofs.ExtensionRemoval
import FeatureAssembly.Proofs.Removal
import FeatureAssembly.Proofs.DescriptorEquality
import FeatureAssembly.Proofs.RemovalFaults
import FeatureAssembly.Proofs.PidPatterns
import FeatureAssembly.Proofs.ContextAnswers
import FeatureAssembly.Proofs.RepeatedSettings
import FeatureAssembly.Proofs.RefusedPatterns
import FeatureAssembly.Proofs.RosterRuns
