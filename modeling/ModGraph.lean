import ModGraph.Main
import ModGraph.Proofs.Follows
import ModGraph.Proofs.Evolution
import ModGraph.Proofs.FileNames
import ModGraph.Proofs.Requests
import ModGraph.Proofs.Reading
import ModGraph.Proofs.StoredNames
import ModGraph.Proofs.Exclusivity
import ModGraph.Proofs.Progress
import ModGraph.Proofs.ShippedCompilers
import ModGraph.Proofs.Compilations
import ModGraph.Proofs.Limits
import ModGraph.Proofs.Nesting
import ModGraph.Proofs.Termination
import ModGraph.Proofs.CanonicalPaths
import ModGraph.Proofs.World
import ModGraph.Proofs.Outcome
import ModGraph.Proofs.Evaluation
import ModGraph.Proofs.Confluence
import ModGraph.Proofs.CallStack
import ModGraph.Proofs.Lasting
import ModGraph.Proofs.Instances
import ModGraph.Proofs.Failures
import ModGraph.Proofs.Rereading
import ModGraph.Proofs.Formats
import ModGraph.Proofs.Partitions
import ModGraph.Proofs.Drafts
import ModGraph.Proofs.Shadows
import ModGraph.Proofs.Twins
import ModGraph.Proofs.Views
import ModGraph.Proofs.Lockstep
import ModGraph.Proofs.TwinRequests
import ModGraph.Proofs.ParsedFirst
import ModGraph.Proofs.Untouched
import ModGraph.Proofs.Durability
import ModGraph.Proofs.Demands
import ModGraph.Proofs.Completeness
import ModGraph.Proofs.Agreement
import ModGraph.Proofs.MainModule
import ModGraph.Proofs.Severing
import ModGraph.Proofs.Exposure
import ModGraph.Proofs.PrintedTokens
import ModGraph.Proofs.PrintedValues
import ModGraph.Proofs.StoredForms
import ModGraph.Proofs.FilePlaces
import ModGraph.Proofs.StoredBlobs
import ModGraph.Proofs.Transparency
import ModGraph.Proofs.Permanence
import ModGraph.Proofs.Renewal
import ModGraph.Proofs.Remnants
import ModGraph.Proofs.Resets
import ModGraph.Proofs.Depictions
import ModGraph.Proofs.RememberedPackages
import ModGraph.Proofs.ResolvedFiles
import ModGraph.Proofs.GenuineTrees
import ModGraph.Proofs.SourceLines
import ModGraph.Proofs.Patterns
import ModGraph.Proofs.Recognisers
import ModGraph.Proofs.Grammar
import ModGraph.Proofs.ReadBack
import ModGraph.Proofs.PrintedPrograms
import ModGraph.Proofs.RestoredPrograms
import ModGraph.Proofs.StoredAgain
import ModGraph.Proofs.SearchFolders
import ModGraph.Proofs.BuiltinModules
import ModGraph.Proofs.RememberedSources
import ModGraph.Proofs.NestedErrors
import ModGraph.Proofs.Scripts
import ModGraph.Proofs.ModuleFolders
