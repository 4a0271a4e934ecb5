import Batiste.Transition
import Batiste.ExecutorStep
import Batiste.Plan
import Batiste.ExecutorRound
import Batiste.ExecutorRun
import Batiste.ExecutorContract
import Batiste.AgentPool
import Batiste.AgentPoolRun
import Batiste.Json
import Batiste.ReadModifyWrite
import Batiste.TaskManager
import Batiste.GitLog
import Batiste.TaskReconciler
import Batiste.UnitElimination
import Batiste.ReconcilerPass
import Batiste.ReconcilerRuns
import Batiste.AuditedHandler
import Batiste.AuditedRuns
import Batiste.KillSwitchRuns
import Batiste.SecureGateway
import Batiste.SecureGatewayRuns
import Batiste.NodeFactory
import Batiste.EditConcurrencyGuard
import Batiste.Redaction
import Batiste.ReconcilerArchived
import Batiste.ReconcilerWindow
import Batiste.ChunkReader
import Batiste.LspClient
import Batiste.LspFraming
import Batiste.GitTracker
import Batiste.GitAwareIndexer
import Batiste.IndexerPlan
import Batiste.IndexerRuns
import Batiste.ScopedHandler
import Batiste.ScopedConfinement
import Batiste.Glob
import Batiste.LexicalPath
import Batiste.ScopeTraversal
import Batiste.Forest
import Batiste.JsonText
import Batiste.CastChunker
import Batiste.ChunkTiling
import Batiste.CsvEtl
import Batiste.CsvRoundTrip
import Batiste.DepthFirst
import Batiste.NodePath
import Batiste.RecursiveScout
import Batiste.ScoutCaches
import Batiste.ScoutReach
import Batiste.FirmMemory
import Batiste.MemoryLists
import Batiste.ParseCacheRuns
import Batiste.StableSort
import Batiste.NamespaceIsolation
import Batiste.ManageTask
import Batiste.TaskWrites
import Batiste.ActionWrites
import Batiste.MergeContents
import Batiste.MergeRuns
import Batiste.MergeRetry
import Batiste.RateLimiter
import Batiste.RoseTree
import Batiste.TaskTree
import Batiste.AgentPoolDispatch
import Batiste.AgentPoolScaling
import Batiste.CcSessionResume
import Batiste.ClusterAcl
import Batiste.ExecutorCaps
import Batiste.GraphBuilder
import Batiste.GraphClusterer
import Batiste.TrelloIngest
import Batiste.Bundle
import Batiste.BundleRestore
import Batiste.DpaGuard
import Batiste.ClientIp
import Batiste.TaskLog
import Batiste.AuditTail
import Batiste.AuditEmitter
import Batiste.CivilDate
import Batiste.RenewWindow
import Batiste.DriveIngest
import Batiste.AbsorbedCreate
import Batiste.ClearBackup
import Batiste.DedupeKeys
import Batiste.TriageBatch
import Batiste.ArraySort
import Batiste.Marketplace
import Batiste.AuditLedger
import Batiste.CommitStream
import Batiste.ExactId
import Batiste.ClusterSummary
import Batiste.Orchestrator
import Batiste.AgentPoolQueue
import Batiste.BreadthFirst
import Batiste.GraphNeighbors
import Batiste.WeightedRetrieval
import Batiste.FaultyAction
import Batiste.PromptPut
import Batiste.ChunkLimits
import Batiste.GrepRag
import Batiste.CommonSubsequence
import Batiste.DiffTracker
import Batiste.FixGenerator
import Batiste.CycleSearch
import Batiste.ScoreOrder
import Batiste.TasklogHygiene
import Batiste.GitFallback
import Batiste.ImportCycles
import Batiste.SlideZones
import Batiste.SlideCompile
import Batiste.Frontmatter
import Batiste.BundleWrites
import Batiste.HookUninstall
import Batiste.SpanRegex
import Batiste.GlobalReplace
import Batiste.TurnTrace
import Batiste.Scrub
import Batiste.ScrubResidue
import Batiste.ScrubSecrets
import Batiste.CcMemory
import Batiste.VaultRules
import Batiste.Dilate
import Batiste.OverhangVerdict
import Batiste.SecretListing
import Batiste.SymbolSearch
import Batiste.PerformanceTracker
import Batiste.AuditNotes
import Batiste.PythonImports
import Batiste.DeployRegistry
import Batiste.Clash
import Batiste.DeployPost
import Batiste.FontSource
import Batiste.JsonReader
import Batiste.Snapshots
import Batiste.CheckpointFile
import Batiste.IndexFile
import Batiste.LspRequests
import Batiste.Chronicle
import Batiste.ExecutorLineage
import Batiste.AutoFixer
import Batiste.KeyTable
import Batiste.MarketplaceGateway
import Batiste.GatewayRuns
import Batiste.HookSettings
import Batiste.Tally
import Batiste.TokenUsage
import Batiste.FileWatcher
import Batiste.DuplicateFiles
import Batiste.Limiter
import Batiste.ParallelBridge
import Batiste.Shells
import Batiste.Trail
import Batiste.WorkflowStages
