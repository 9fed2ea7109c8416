import PolicyLint.Elapsed
import PolicyLint.FileSystem.Edit
import PolicyLint.Protocol.Session
import PolicyLint.Proofs.FileSystem.Resolution
import PolicyLint.Proofs.Workspace.Agreement
import PolicyLint.Proofs.Workspace.BatchOrder
import PolicyLint.Proofs.Workspace.ClientView
import PolicyLint.Proofs.Workspace.Deletion
import PolicyLint.Proofs.Workspace.DiagnosticRanges
import PolicyLint.Proofs.Workspace.OpenFiles
import PolicyLint.Proofs.Workspace.Scan
import PolicyLint.Proofs.Workspace.Versions
import PolicyLint.Proofs.Workspace.EditingSession
import PolicyLint.Proofs.Workspace.Recovery
import PolicyLint.Proofs.Workspace.Roots
import PolicyLint.Proofs.Workspace.FolderChange
import PolicyLint.Proofs.FileSystem.Growth
import PolicyLint.Proofs.Workspace.Listing
import PolicyLint.Proofs.Workspace.Membership
import PolicyLint.Proofs.CrossFile.Documentation
import PolicyLint.Proofs.CrossFile.ImportComponents
import PolicyLint.Proofs.Rego.TokenText
import PolicyLint.Proofs.Rego.Grammar
import PolicyLint.Proofs.Rego.Nearby
import PolicyLint.Proofs.Rego.Relexing
import PolicyLint.Proofs.Rego.Uncommented
import PolicyLint.Proofs.Rego.Appending
import PolicyLint.Proofs.Workspace.DisabledRules
import PolicyLint.Proofs.CrossFile.Interleaving
import PolicyLint.Proofs.Rego.AnnotatedStatements
import PolicyLint.Proofs.Rego.Hover
import PolicyLint.Proofs.Rego.LineByLine
import PolicyLint.Proofs.CrossFile.AddedFile
import PolicyLint.Proofs.Rego.Locations
import PolicyLint.Proofs.Workspace.EvaluatorFailures
import PolicyLint.Proofs.FileSystem.StableNames
import PolicyLint.Proofs.Workspace.KnownFiles
import PolicyLint.Proofs.Workspace.RootRemovals
import PolicyLint.Proofs.Settings.GivenFields
import PolicyLint.Proofs.Rule.SuggestedNames
import PolicyLint.Proofs.Workspace.VirtualDocuments
