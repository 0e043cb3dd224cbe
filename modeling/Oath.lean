import Oath.Registry.Migration
import Oath.Registry.ApprovedDownloads
import Oath.Registry.PublicationOrigins
import Oath.Registry.CredentialRuns
import Oath.Registry.Credentials
import Oath.Resolve.OrderFree
import Oath.Resolve.DevFlags
import Oath.Resolve.ResolverLevels
import Oath.Resolve.ResolverOrders
import Oath.Library.LayeredSearch
import Oath.Resolve.PeerResolution
import Oath.Store.FastPath
import Oath.Store.FullLink
import Oath.Library.Delimited
import Oath.Cli.PublishAssessment
import Oath.Store.PathDiff
import Oath.Library.RelativePaths
import Oath.Resolve.RequiredEdges
import Oath.Resolve.ResolverEdges
import Oath.Resolve.LegacyResolver
import Oath.Sandbox.SeatbeltProfile
import Oath.Sandbox.Seatbelt
import Oath.Library.SExpressions
import Oath.Cli.Remove
import Oath.Cli.LockAgreement
import Oath.Cli.LockQueries
import Oath.Workspace.Detection
import Oath.Resolve.NpmLockfileEdges
import Oath.Resolve.NpmLockfile
import Oath.Analyze.PatternScore
import Oath.Analyze.FindingDedup
import Oath.Analyze.Passes
import Oath.Library.KeyedLists
import Oath.Cli.HydrationProvenance
import Oath.Sandbox.WindowsCommand
import Oath.Library.CommandLine
import Oath.Cli.Approvals
import Oath.Contracts.PrettyRead
import Oath.Cli.ConcurrentApprovals
import Oath.Fetch.ExtractionSafety
import Oath.Fetch.Tarball
import Oath.Library.Outcome
import Oath.Fetch.IgnoreFiles
import Oath.Workspace.Globs
import Oath.Fetch.EnvExpansion
import Oath.Cli.ScriptArguments
import Oath.Library.ShellWords
import Oath.Resolve.PackageNames
import Oath.Cli.IsoAge
import Oath.Fetch.StreamedIntegrity
import Oath.Store.ExactTree
import Oath.Store.ModuleResolution
import Oath.Store.StageBuild
import Oath.Store.Linker
import Oath.Analyze.ScanAgreement
import Oath.Fetch.Npmrc
import Oath.Fetch.PackumentCache
import Oath.Library.Utf8Order
import Oath.Contracts.ClientAgreement
import Oath.Contracts.SignedDocuments
import Oath.Registry.AssessedFiles
import Oath.Registry.ReaderRole
import Oath.Registry.StageAccess
import Oath.Registry.TombstoneBundle
import Oath.Registry.RoleGrants
import Oath.Registry.CausalOrder
import Oath.Registry.Confidentiality
import Oath.Registry.Served
import Oath.Registry.ReplicatedStore
import Oath.Registry.PendingQuota
import Oath.Registry.TagHistory
import Oath.Registry.Invitations
import Oath.Registry.MerkleConsistency
import Oath.Resolve.Placement
import Oath.Resolve.LockfileRoundTrip
import Oath.Cli.Ci
import Oath.Cli.FrozenInstall
import Oath.Cli.Frozen
import Oath.Cli.SecretAgreement
import Oath.Cli.LinkStep
import Oath.Cli.TransferCompleteness
import Oath.Cli.CapsuleSoundness
import Oath.Cli.Install
import Oath.Cli.MinimumAge
import Oath.Cli.InstallScripts
import Oath.Cli.PolicyEnforcement
import Oath.Cli.ScriptConsent
import Oath.Cli.ExecBinding
import Oath.Cli.DownloadIntegrity
import Oath.Cli.WorkspacePlacement
import Oath.Sandbox.Policy
import Oath.Store.EnumerationRules
import Oath.Store.EntryLayout
import Oath.Store.EntryListing
import Oath.Transparency.ConcurrentLog
import Oath.Analyze.ScoreSoundness
